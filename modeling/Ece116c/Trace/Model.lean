import Mathlib.Logic.Function.Basic
import Ece116c.Predict.Model
import Ece116c.Lib.Reading
import Ece116c.Trace.Input

/-! The trace reader of `trace.cc`, which takes back the prediction of the compressor while it
    reads.

    Both programs that know the format keep the same tables: the set-associative memory `rtab` of
    branches seen before, found by the target of the branch before them, and the return address
    stack. `lru_time` is read of the branches in the table only, so it is a field of these. -/

namespace TraceFile

open Predict Reading

/-! ### The tables -/

/-- A branch; the places of the table that were never used have the code 0. -/
@[ext] structure Remember where
  taken : Bool
  code : BitVec 8
  address : BitVec 32
  target : BitVec 32
  taken_of_code : code ≠ 0 → taken = true
  deriving DecidableEq, Repr

/-- What the constructor leaves. -/
def Remember.init : Remember := ⟨false, 0, 0, 0, fun h => absurd rfl h⟩

/-- A branch that was read: it counts as taken. -/
def Remember.read (code : BitVec 8) (address target : BitVec 32) : Remember :=
  ⟨true, code, address, target, fun _ => rfl⟩

/-- `equal`, the target counting or not. -/
def Remember.equal (me r : Remember) (ignoreTarget : Bool) : Bool :=
  r.code == me.code && r.taken == me.taken && r.address == me.address &&
    (ignoreTarget || r.target == me.target)

/-- A place of the table. -/
structure Entry extends Remember where
  lruTime : BitVec 32
  deriving DecidableEq, Repr

/-- The return address stack, which grows down from `RAS_SIZE`. -/
structure Ras where
  ras : Fin 100 → BitVec 32
  top : ℕ
  top_le : top ≤ 100

namespace Ras

/-- `init_ras`. -/
def init (s : Ras) : Ras := { s with top := 100, top_le := le_refl _ }

/-- `push_ras`, which drops `a` when the stack is full. -/
def push (s : Ras) (a : BitVec 32) : Ras :=
  if h : s.top = 0 then s
  else
    { ras := Function.update s.ras ⟨s.top - 1, by have := s.top_le; omega⟩ a
      top := s.top - 1
      top_le := by have := s.top_le; omega }

/-- `pop_ras`, 0 when the stack is empty. -/
def pop (s : Ras) : BitVec 32 × Ras :=
  if h : s.top < 100 then (s.ras ⟨s.top, h⟩, { s with top := s.top + 1, top_le := h })
  else (0, s)

end Ras

/-- The globals of `trace.cc`. -/
structure Globals where
  ras : Ras
  rtab : BitVec 32 → Fin 8 → Entry
  now : BitVec 32
  lastOne : Remember

namespace Globals

/-- As the program starts. -/
def init : Globals where
  ras := ⟨fun _ => 0, 100, le_refl _⟩
  rtab _ _ := ⟨Remember.init, 0⟩
  now := 0
  lastOne := Remember.init

/-- The index that `predict_remember` takes, `last_one.target & (N_REMEMBER-1)`. -/
def row (g : Globals) : BitVec 32 := g.lastOne.target &&& 0xFFFF

/-- `predict_remember`. -/
def predictRemember (g : Globals) : Fin 8 → Entry := g.rtab g.row

/-- The loop for the LRU item. -/
def lruItem (r : Fin 8 → Entry) : Fin 8 :=
  [1, 2, 3, 4, 5, 6, 7].foldl (fun lru i => if (r i).lruTime < (r lru).lruTime then i else lru) 0

/-- Place `k` of the predicted set, stamped with the time. -/
def stamp (g : Globals) (k : Fin 8) (r : Remember) : Globals where
  ras := g.ras
  rtab := Function.update g.rtab g.row (Function.update g.predictRemember k ⟨r, g.now⟩)
  now := g.now + 1
  lastOne := g.lastOne

/-- `update_remember (me, r, correct, index)`, without an index when the prediction was wrong. -/
def updateRemember (g : Globals) (me : Remember) (index : Option (Fin 8)) : Globals :=
  match index with
  | some k => { g.stamp k (g.predictRemember k).toRemember with lastOne := me }
  | none => { g.stamp (lruItem g.predictRemember) me with lastOne := me }

end Globals

/-! ### `read_trace` -/

/-- `BR_INDIRECT`, `BR_CALL` and `BR_RETURN`. -/
def brIndirect : BitVec 32 := 2
def brCall : BitVec 32 := 4
def brReturn : BitVec 32 := 8

/-- A return address predicted up to what a prefix says. -/
def patch (offBy2 offBy3 : Bool) (a : BitVec 32) : BitVec 32 :=
  if offBy2 then a + 2 else if offBy3 then a - 3 else a

variable {bufSize : ℕ+}

/-- The prefix of a patched return address: `ras_offby2`, `ras_offby3` and the byte behind it. -/
def readPrefix (c : BitVec 8) (i : Input bufSize) :
    Option (Bool × Bool × BitVec 8 × Input bufSize) :=
  if c &&& 0x80 ≠ 0 then
    if c = 0x82 then some (true, false, i.readByte)
    else if c = 0x83 then some (false, true, i.readByte)
    else none
  else some (false, false, c, i)

/-- The place a byte below `ASSOC*2` stands for. -/
def place (c : BitVec 8) : Fin 8 := Fin.ofNat 8 (if 8 ≤ c then c - 8 else c).toNat

/-- The branch of a correct prediction. -/
def recalled (g : Globals) (offBy2 offBy3 : Bool) (c : BitVec 8) : Remember × Globals :=
  let rasCorrect := decide (8 ≤ c)
  let r := (g.predictRemember (place c)).toRemember
  let (r, ras) :=
    if r.code = 0x70 then
      let (popd, ras) := g.ras.pop
      if rasCorrect then ({ r with target := patch offBy2 offBy3 popd }, ras)
      else (r, ras.init)
    else (r, g.ras)
  (r, { g with ras := ras }.updateRemember r (some (place c)))

/-- The stack after a return to `target` that was not predicted. -/
def Ras.missed (s : Ras) (target : BitVec 32) : Ras :=
  let (popd, ras) := s.pop
  if popd ≠ target ∧ popd ≠ target - 2 ∧ popd ≠ target + 3 then ras.init else ras

/-- The branch of an incorrect prediction: the whole trace follows. -/
def readRemember (g : Globals) (c : BitVec 8) (i : Input bufSize) :
    Remember × Globals × Input bufSize :=
  let address := i.readUint
  let target := address.2.readUint
  let r := Remember.read c address.1 target.1
  let ras := if r.code = 0x70 then g.ras.missed r.target else g.ras
  (r, { g with ras := ras }.updateRemember r none, target.2)

/-- The two cases of `correct`. -/
def readBranch (g : Globals) (offBy2 offBy3 : Bool) (c : BitVec 8) (i : Input bufSize) :
    Remember × Globals × Input bufSize :=
  if c < 16 then
    let (r, g) := recalled g offBy2 offBy3 c
    (r, g, i)
  else readRemember g c i

/-- The switch over the high four bits of the code, and the fields it leaves. -/
def classify (r : Remember) (ras : Ras) : Option (Trace × Ras) :=
  let opcode := (r.code &&& 15).setWidth 32
  let trace := fun (taken : Bool) (brFlags : BitVec 32) =>
    (⟨taken, r.target, ⟨r.address, opcode, brFlags⟩⟩ : Trace)
  match (r.code >>> 4).toNat with
  | 1 => some (trace r.taken brConditional, ras)
  | 2 => some (trace false brConditional, ras)
  | 3 => some (trace r.taken 0, ras)
  | 4 => some (trace r.taken brIndirect, ras)
  | 5 => some (trace r.taken brCall, ras.push (r.address + 5))
  | 6 => some (trace r.taken (brCall ||| brIndirect), ras.push (r.address + 2))
  | 7 => some (trace r.taken brReturn, ras)
  | _ => none

def readTrace (s : Globals × Input bufSize) : Outcome Trace (Globals × Input bufSize) :=
  let c := s.2.readByte
  if c.2.endOfFile then .ended
  else
    match readPrefix c.1 c.2 with
    | none => .failed
    | some (offBy2, offBy3, c, i) =>
      let (r, g, i) := readBranch s.1 offBy2 offBy3 c i
      match classify r g.ras with
      | none => .failed
      | some (t, ras) => .next t ({ g with ras := ras }, i)

/-- All the traces in the bytes of a file; every one takes a byte at least. -/
def readTraces (bufSize : ℕ+) (file : List (BitVec 8)) : Option (List Trace) :=
  loop readTrace (file.length + 1) (Globals.init, Input.init bufSize file)

end TraceFile
