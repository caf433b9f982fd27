import Mathlib.Data.PNat.Defs
import Ece116c.Lib.Bits

/-! Opening a trace file, and reading it byte by byte through the buffer of `trace.cc`.

    What is still to be read is the list `remaining`, whatever the size of the buffer; a byte is the
    head of that list, or 0 at the end of the file. -/

namespace TraceFile

open Bits

/-! ### Opening a file -/

/-- `ZCAT` and `BZCAT`: what comes through their pipes for a file. -/
structure Commands where
  zcat : List (BitVec 8) → List (BitVec 8)
  bzcat : List (BitVec 8) → List (BitVec 8)

/-- `GZIP_MAGIC` and `BZIP2_MAGIC`. -/
def gzipMagic : List (BitVec 8) := [0x1F, 0x8B]
def bzip2Magic : List (BitVec 8) := [0x42, 0x5A]

/-- What is named on the command line: `-` or a file. -/
inductive Source
  | stdin (bytes : List (BitVec 8))
  | named (file : List (BitVec 8))

/-- The bytes `init_trace` has read. The magic number of a file decides on the command, and `CAT`
    changes nothing. -/
def initTrace (z : Commands) : Source → List (BitVec 8)
  | .stdin bytes => bytes
  | .named file =>
    if file.take 2 = gzipMagic then z.zcat file
    else if file.take 2 = bzip2Magic then z.bzcat file
    else file

/-- A file that is read as it is. -/
def Unmarked (file : List (BitVec 8)) : Prop :=
  file.take 2 ≠ gzipMagic ∧ file.take 2 ≠ bzip2Magic

instance (file : List (BitVec 8)) : Decidable (Unmarked file) := by
  unfold Unmarked
  infer_instance

theorem initTrace_named {z : Commands} {file : List (BitVec 8)} (h : Unmarked file) :
    initTrace z (.named file) = file := by
  rw [initTrace, if_neg h.1, if_neg h.2]

/-! ### The buffer -/

/-- The buffer holds the bytes `fread` gave last, `file` is what comes after them. Once the end of
    the file was seen there is nothing left. -/
structure Input (bufSize : ℕ+) where
  file : List (BitVec 8)
  buf : List (BitVec 8)
  bufPos : ℕ
  endOfFile : Bool
  pos_le : bufPos ≤ buf.length
  nothing_left : endOfFile = true → buf.length = bufPos ∧ file = []

namespace Input

variable {bufSize : ℕ+}

/-- The buffer as `init_trace` leaves it, `file` being what the command hands over. -/
def init (bufSize : ℕ+) (file : List (BitVec 8)) : Input bufSize where
  file := file
  buf := []
  bufPos := 0
  endOfFile := false
  pos_le := le_refl _
  nothing_left h := by cases h

/-- `fread` of a whole buffer. -/
def fill (i : Input bufSize) : Input bufSize where
  file := i.file.drop bufSize
  buf := i.file.take bufSize
  bufPos := 0
  endOfFile := i.endOfFile || (i.file.take bufSize).isEmpty
  pos_le := Nat.zero_le _
  nothing_left h := by
    have hfile : i.file = [] := by
      rcases Bool.or_eq_true_iff.mp h with h | h
      · exact (i.nothing_left h).2
      · rcases List.take_eq_nil_iff.mp (List.isEmpty_iff.mp h) with h | h
        · exact absurd h bufSize.pos.ne'
        · exact h
    simp [hfile]

/-- `buf[bufpos++]`. -/
def take (i : Input bufSize) (h : i.bufPos < i.buf.length) : BitVec 8 × Input bufSize :=
  (i.buf[i.bufPos],
    { i with
      bufPos := i.bufPos + 1
      pos_le := h
      nothing_left := fun he => absurd (i.nothing_left he).1 (Nat.ne_of_gt h) })

def readByte (i : Input bufSize) : BitVec 8 × Input bufSize :=
  if h : i.bufPos < i.buf.length then i.take h
  else if h : i.fill.bufPos < i.fill.buf.length then i.fill.take h
  else (0, i.fill)

/-- The bytes not read yet. -/
def remaining (i : Input bufSize) : List (BitVec 8) := i.buf.drop i.bufPos ++ i.file

@[simp] theorem init_remaining (file : List (BitVec 8)) : (init bufSize file).remaining = file :=
  rfl

theorem fill_remaining {i : Input bufSize} (h : i.buf.length ≤ i.bufPos) :
    i.fill.remaining = i.remaining := by
  simp [remaining, fill, List.drop_eq_nil_of_le h]

theorem take_remaining {i : Input bufSize} (h : i.bufPos < i.buf.length) :
    i.remaining = (i.take h).1 :: (i.take h).2.remaining := by
  rw [remaining, List.drop_eq_getElem_cons h]
  rfl

theorem endOfFile_eq {i : Input bufSize} (h : i.bufPos < i.buf.length) : i.endOfFile = false := by
  cases he : i.endOfFile with
  | false => rfl
  | true => exact absurd (i.nothing_left he).1 (Nat.ne_of_gt h)

/-- A byte is the next one of the file, and the flag says whether there was one. -/
theorem readByte_spec (i : Input bufSize) :
    i.readByte.1 = i.remaining.headD 0 ∧ i.readByte.2.remaining = i.remaining.tail ∧
      i.readByte.2.endOfFile = i.remaining.isEmpty := by
  rw [readByte]
  split
  · rename_i h
    rw [take_remaining h]
    exact ⟨rfl, rfl, endOfFile_eq (i := i) h⟩
  · rename_i h
    rw [← fill_remaining (Nat.le_of_not_lt h)]
    split
    · rename_i h'
      rw [take_remaining h']
      exact ⟨rfl, rfl, endOfFile_eq (i := i.fill) h'⟩
    · rename_i h'
      -- nothing was read, so the file is at its end
      have hbuf : i.fill.buf = [] := List.eq_nil_of_length_eq_zero (Nat.eq_zero_of_not_pos h')
      have hend : i.fill.endOfFile = true := by
        have hempty : (i.file.take bufSize).isEmpty = true := List.isEmpty_iff.mpr hbuf
        simp [fill, hempty]
      have hnil : i.fill.remaining = [] := by
        simp [remaining, hbuf, (i.fill.nothing_left hend).2]
      simp [hnil, hend]

@[simp] theorem readByte_fst (i : Input bufSize) : i.readByte.1 = i.remaining.headD 0 :=
  i.readByte_spec.1

@[simp] theorem readByte_remaining (i : Input bufSize) :
    i.readByte.2.remaining = i.remaining.tail := i.readByte_spec.2.1

@[simp] theorem readByte_endOfFile (i : Input bufSize) :
    i.readByte.2.endOfFile = i.remaining.isEmpty := i.readByte_spec.2.2

/-- An `unsigned int` in little endian. -/
def readUint (i : Input bufSize) : BitVec 32 × Input bufSize :=
  let x0 := i.readByte
  let x1 := x0.2.readByte
  let x2 := x1.2.readByte
  let x3 := x2.2.readByte
  (x0.1.setWidth 32 ||| (x1.1.setWidth 32 <<< 8) ||| (x2.1.setWidth 32 <<< 16) |||
    (x3.1.setWidth 32 <<< 24), x3.2)

end Input

/-- The four bytes of `x` in memory, which `fwrite (&x, 4, 1, stdout)` writes. -/
def uintBytes (x : BitVec 32) : List (BitVec 8) :=
  [x.extractLsb' 0 8, x.extractLsb' 8 8, x.extractLsb' 16 8, x.extractLsb' 24 8]

/-- The `unsigned int` at the head of a list; bytes that are not there are 0. -/
def uintAt (l : List (BitVec 8)) : BitVec 32 :=
  l.getD 3 0 ++ l.getD 2 0 ++ l.getD 1 0 ++ l.getD 0 0

@[simp] theorem uintAt_uintBytes (x : BitVec 32) (l : List (BitVec 8)) :
    uintAt (uintBytes x ++ l) = x :=
  bytes_join x

@[simp] theorem length_uintBytes (x : BitVec 32) : (uintBytes x).length = 4 := rfl

namespace Input

variable {bufSize : ℕ+}

@[simp] theorem readUint_fst (i : Input bufSize) : i.readUint.1 = uintAt i.remaining := by
  have hrev : ∀ p q r s : BitVec 32, p ||| q ||| r ||| s = s ||| r ||| q ||| p :=
    fun p q r s => by ac_rfl
  have hhead : ∀ l : List (BitVec 8), l.getD 0 0 = l.headD 0 := fun l => by cases l <;> rfl
  have htail : ∀ (l : List (BitVec 8)) k, l.getD (k + 1) 0 = l.tail.getD k 0 :=
    fun l k => by cases l <;> rfl
  rw [readUint, hrev, bytes_or]
  simp only [readByte_fst, readByte_remaining, uintAt, htail, hhead]

@[simp] theorem readUint_remaining (i : Input bufSize) :
    i.readUint.2.remaining = i.remaining.drop 4 := by
  simp [readUint, ← List.drop_one]

end Input

end TraceFile
