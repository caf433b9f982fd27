import Ece116c.Trace.Model

/-! The program `ct` of `compress/`: with `-c` it writes a trace file the way `trace.cc` reads it,
    with `-d` it writes the original.

    What a call of its `read_trace` writes to the standard output comes with the trace it returns;
    the file written is these parts one after another. -/

namespace TraceFile

open Predict Reading

variable {bufSize : ℕ+}

/-- Instruction counts are passed along: what is written of them, and the byte behind. -/
def passCounts (c : BitVec 8) (i : Input bufSize) :
    List (BitVec 8) × BitVec 8 × Input bufSize :=
  if c = 0x87 then
    let x := i.readByte
    let y := x.2.readByte
    ([c, x.1, y.1], y.2.readByte)
  else ([], c, i)

/-- A trace in nine bytes. -/
def Remember.bytes (r : Remember) : List (BitVec 8) :=
  r.code :: (uintBytes r.address ++ uintBytes r.target)

/-! ### Compressing -/

/-- What the compressor finds of a target: `ras_correct`, `ras_offby2` and `ras_offby3`. -/
structure Forecast where
  correct : Bool
  offBy2 : Bool
  offBy3 : Bool
  deriving DecidableEq, Repr

/-- The return address prediction for a trace, and the stack after it. -/
def Ras.forecast (s : Ras) (r : Remember) : Forecast × Ras :=
  if r.code = 0x70 then
    let (popd, ras) := s.pop
    if popd = r.target then (⟨true, false, false⟩, ras)
    else if r.target = popd + 2 then (⟨true, true, false⟩, ras)
    else if r.target = popd - 3 then (⟨true, false, true⟩, ras)
    else (⟨false, false, false⟩, ras.init)
  else (⟨false, false, false⟩, s)

/-- `search_remember`. -/
def searchRemember (me : Remember) (r : Fin 8 → Entry) (rasCorrect : Bool) : Option (Fin 8) :=
  (List.finRange 8).find? fun k => me.equal (r k).toRemember rasCorrect

/-- The bytes of a correct prediction. -/
def Forecast.bytes (f : Forecast) (k : Fin 8) : List (BitVec 8) :=
  (if f.offBy2 then [0x82] else if f.offBy3 then [0x83] else []) ++
    [BitVec.ofNat 8 (if f.correct then k + 8 else k)]

/-- The bytes for a trace, and the globals after `update_remember`. -/
def Globals.encode (g : Globals) (r : Remember) : List (BitVec 8) × Globals :=
  let (f, ras) := g.ras.forecast r
  let index := searchRemember r g.predictRemember f.correct
  (match index with
    | some k => f.bytes k
    | none => r.bytes,
    { g with ras := ras }.updateRemember r index)

/-- `read_trace` with `-c`. -/
def compressTrace (s : Globals × Input bufSize) :
    Outcome (List (BitVec 8) × Trace) (Globals × Input bufSize) :=
  let c := s.2.readByte
  if c.2.endOfFile then .ended
  else
    let (counts, c, i) := passCounts c.1 c.2
    let address := i.readUint
    let target := address.2.readUint
    if c &&& 0x80 ≠ 0 then .failed
    else
      let r := Remember.read c address.1 target.1
      let (out, g) := s.1.encode r
      match classify r g.ras with
      | none => .failed
      | some (t, ras) => .next (counts ++ out, t) ({ g with ras := ras }, target.2)

/-! ### Decompressing -/

/-- `read_trace` with `-d`. -/
def decompressTrace (s : Globals × Input bufSize) :
    Outcome (List (BitVec 8) × Trace) (Globals × Input bufSize) :=
  let c := s.2.readByte
  if c.2.endOfFile then .ended
  else
    let (counts, c, i) := passCounts c.1 c.2
    match readPrefix c i with
    | none => .failed
    | some (offBy2, offBy3, c, i) =>
      let (r, g, i) := readBranch s.1 offBy2 offBy3 c i
      if c < 16 ∧ r.equal (s.1.predictRemember (place c)).toRemember (decide (8 ≤ c)) = false then
        .failed
      else
        match classify r g.ras with
        | none => .failed
        | some (t, ras) => .next (counts ++ r.bytes, t) ({ g with ras := ras }, i)

/-! ### `main` -/

/-- The loop of `main` over the bytes of one file: what is written. -/
def runTrace (f : Globals × Input bufSize →
    Outcome (List (BitVec 8) × Trace) (Globals × Input bufSize)) (file : List (BitVec 8)) :
    Option (List (BitVec 8)) :=
  (loop f (file.length + 1) (Globals.init, Input.init bufSize file)).map fun out =>
    out.flatMap (·.1)

/-- The loop with `-c`. -/
def compress (bufSize : ℕ+) (file : List (BitVec 8)) : Option (List (BitVec 8)) :=
  runTrace (@compressTrace bufSize) file

/-- The loop with `-d`. -/
def decompress (bufSize : ℕ+) (file : List (BitVec 8)) : Option (List (BitVec 8)) :=
  runTrace (@decompressTrace bufSize) file

/-- `main` with one file: what is written, if no assertion fails. -/
def ct (z : Commands) (bufSize : ℕ+) (compressing : Bool) (source : Source) :
    Option (List (BitVec 8)) :=
  if compressing then compress bufSize (initTrace z source)
  else decompress bufSize (initTrace z source)

end TraceFile
