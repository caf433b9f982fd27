import Ece116c.Trace.Compress

/-! The format of a trace file: records of nine bytes, each perhaps behind an instruction count, and
    what a record means. A file that breaks off inside a record is read as if zeros followed. -/

namespace TraceFile

open Bits Predict Reading

/-! ### Lists that break off -/

/-- The next `n` bytes of a list, zeros where it has ended. -/
def padded : ℕ → List (BitVec 8) → List (BitVec 8)
  | 0, _ => []
  | n + 1, l => l.headD 0 :: padded n l.tail

theorem padded_eq (n : ℕ) (l : List (BitVec 8)) :
    padded n l = l.take n ++ List.replicate (n - l.length) 0 := by
  induction n generalizing l with
  | zero => simp [padded]
  | succ n ih =>
    cases l with
    | nil => simp [padded, ih, List.replicate_succ]
    | cons b l => simp [padded, ih]

@[simp] theorem padded_length (n : ℕ) (l : List (BitVec 8)) : (padded n l).length = n := by
  induction n generalizing l with
  | zero => rfl
  | succ n ih => simp [padded, ih]

theorem padded_add (m n : ℕ) (l : List (BitVec 8)) :
    padded (m + n) l = padded m l ++ padded n (l.drop m) := by
  induction m generalizing l with
  | zero => simp [padded]
  | succ m ih =>
    have hdrop : l.drop (m + 1) = l.tail.drop m := by simp
    rw [Nat.add_right_comm, padded, padded, ih, hdrop]
    rfl

theorem padded_append_drop (n : ℕ) (l : List (BitVec 8)) :
    padded n l ++ l.drop n = l ++ List.replicate (n - l.length) 0 := by
  rw [padded_eq]
  rcases Nat.le_total n l.length with h | h
  · simp [Nat.sub_eq_zero_of_le h]
  · simp [List.take_of_length_le h, List.drop_eq_nil_of_le h]

/-- Zeros behind a list do not show. -/
theorem padded_zeros (n k : ℕ) (l : List (BitVec 8)) :
    padded n (l ++ List.replicate k 0) = padded n l := by
  induction n generalizing l k with
  | zero => rfl
  | succ n ih =>
    cases l with
    | nil =>
      cases k with
      | zero => rfl
      | succ k => simpa [padded, List.replicate_succ] using ih k []
    | cons b l => simpa [padded] using ih k l

theorem uintBytes_uintAt (l : List (BitVec 8)) : uintBytes (uintAt l) = padded 4 l := by
  have hget : ∀ (l : List (BitVec 8)) k, l.getD (k + 1) 0 = l.tail.getD k 0 :=
    fun l k => by cases l <;> rfl
  have hhead : ∀ l : List (BitVec 8), l.getD 0 0 = l.headD 0 := fun l => by cases l <;> rfl
  have h0 : (uintAt l).extractLsb' 0 8 = l.getD 0 0 := slice_low
  have h1 : (uintAt l).extractLsb' 8 8 = l.getD 1 0 := slice_skip slice_low
  have h2 : (uintAt l).extractLsb' 16 8 = l.getD 2 0 := slice_skip (slice_skip slice_low)
  have h3 : (uintAt l).extractLsb' 24 8 = l.getD 3 0 :=
    slice_skip (slice_skip (slice_skip slice_all))
  simp only [uintBytes, h0, h1, h2, h3, padded, hget, hhead]

theorem headD_zeros (l : List (BitVec 8)) (k : ℕ) :
    (l ++ List.replicate k 0).headD 0 = l.headD 0 := by
  cases l with
  | nil => cases k <;> rfl
  | cons b l => rfl

theorem tail_zeros (l : List (BitVec 8)) (k : ℕ) :
    ∃ k', (l ++ List.replicate k 0).tail = l.tail ++ List.replicate k' 0 := by
  cases l with
  | nil => exact ⟨k - 1, by simp⟩
  | cons b l => exact ⟨k, rfl⟩

theorem uintAt_zeros (l : List (BitVec 8)) (k : ℕ) :
    uintAt (l ++ List.replicate k 0) = uintAt l := by
  have hbytes : ∀ l, uintAt l = uintAt (padded 4 l) := fun l => by
    rw [← uintBytes_uintAt, ← List.append_nil (uintBytes _), uintAt_uintBytes]
  rw [hbytes, padded_zeros, ← hbytes]

/-! ### Records -/

/-- An instruction count, and what is behind it. -/
def splitCounts (l : List (BitVec 8)) : Option (BitVec 8 × BitVec 8) × List (BitVec 8) :=
  if l.headD 0 = 0x87 then (some (l.tail.headD 0, l.tail.tail.headD 0), l.tail.tail.tail)
  else (none, l)

/-- A record of a trace file: a branch, behind the two bytes of an instruction count or not. -/
structure Record where
  counts : Option (BitVec 8 × BitVec 8)
  code : BitVec 8
  address : BitVec 32
  target : BitVec 32
  deriving DecidableEq, Repr

namespace Record

/-- What the tables keep of it. -/
def remember (r : Record) : Remember := .read r.code r.address r.target

def countBytes (r : Record) : List (BitVec 8) := r.counts.elim [] fun x => [0x87, x.1, x.2]

def bytes (r : Record) : List (BitVec 8) := r.countBytes ++ r.remember.bytes

/-- The codes of the format. -/
def Valid (r : Record) : Prop := 0x10 ≤ r.code ∧ r.code < 0x80

instance (r : Record) : Decidable r.Valid := inferInstanceAs (Decidable (_ ∧ _))

/-- The kind of branch, as the codes are listed. -/
def brFlags (code : BitVec 8) : BitVec 32 :=
  match (code >>> 4).toNat with
  | 1 | 2 => brConditional
  | 4 => brIndirect
  | 5 => brCall
  | 6 => brCall ||| brIndirect
  | 7 => brReturn
  | _ => 0

/-- The branch that is meant: all are taken but conditional ones with the upper bits 2. -/
def trace (r : Record) : Trace where
  taken := decide ((r.code >>> 4).toNat ≠ 2)
  target := r.target
  bi := ⟨r.address, (r.code &&& 15).setWidth 32, brFlags r.code⟩

/-- The record at the head of a list. -/
def read (l : List (BitVec 8)) : Record :=
  let x := splitCounts l
  ⟨x.1, x.2.headD 0, uintAt x.2.tail, uintAt (x.2.tail.drop 4)⟩

/-- A conditional branch that is taken, a call and a return, without instruction counts. -/
def jump (address target : BitVec 32) : Record := ⟨none, 0x10, address, target⟩

def call (address target : BitVec 32) : Record := ⟨none, 0x50, address, target⟩

def ret (address target : BitVec 32) : Record := ⟨none, 0x70, address, target⟩

theorem remember_bytes (r : Record) :
    r.remember.bytes = r.code :: (uintBytes r.address ++ uintBytes r.target) := rfl

theorem remember_bytes_length (r : Remember) : r.bytes.length = 9 := rfl

theorem le_length_bytes (r : Record) : 9 ≤ r.bytes.length := by
  rw [bytes, List.length_append, remember_bytes_length]
  exact Nat.le_add_left _ _

/-- It is made of the first bytes of the list. -/
theorem read_bytes (l : List (BitVec 8)) : (read l).bytes = padded (read l).bytes.length l := by
  rw [read, splitCounts]
  split
  · rename_i h
    simp only [bytes, countBytes, remember_bytes, uintBytes_uintAt, Option.elim_some,
      ← padded_add]
    rw [← h]
    rfl
  · simp only [bytes, countBytes, remember_bytes, uintBytes_uintAt, Option.elim_none,
      ← padded_add]
    rfl

theorem splitCounts_zeros (l : List (BitVec 8)) (k : ℕ) :
    ∃ k', splitCounts (l ++ List.replicate k 0) =
      ((splitCounts l).1, (splitCounts l).2 ++ List.replicate k' 0) := by
  obtain ⟨k1, h1⟩ := tail_zeros l k
  obtain ⟨k2, h2⟩ := tail_zeros l.tail k1
  obtain ⟨k3, h3⟩ := tail_zeros l.tail.tail k2
  simp only [splitCounts, headD_zeros, h1, h2, h3]
  split
  · exact ⟨k3, rfl⟩
  · exact ⟨k, rfl⟩

/-- Zeros behind a list do not show. -/
theorem read_zeros (l : List (BitVec 8)) (k : ℕ) : read (l ++ List.replicate k 0) = read l := by
  obtain ⟨k0, h0⟩ := splitCounts_zeros l k
  obtain ⟨k1, h1⟩ := tail_zeros (splitCounts l).2 k0
  simp only [read, h0, h1, headD_zeros, uintAt_zeros, List.drop_append, List.drop_replicate]

/-- The list up to the end of the record, zeros added where it breaks off. -/
theorem read_split (l : List (BitVec 8)) :
    l ++ List.replicate ((read l).bytes.length - l.length) 0 =
      (read l).bytes ++ l.drop (read l).bytes.length := by
  rw [read_bytes, padded_length, padded_append_drop]

/-- And the rest of the list is behind it. -/
theorem drop_read (l : List (BitVec 8)) :
    l.drop (read l).bytes.length = (splitCounts l).2.tail.drop 8 := by
  rw [bytes, remember_bytes, countBytes, read, splitCounts]
  split <;> simp [Nat.add_comm]

theorem splitCounts_append (r : Record) {l : List (BitVec 8)} (hl : l.headD 0 ≠ 0x87) :
    splitCounts (r.countBytes ++ l) = (r.counts, l) := by
  obtain ⟨counts, code, address, target⟩ := r
  cases counts with
  | none => exact if_neg hl
  | some x => rfl

theorem Valid.high_bit {r : Record} (hr : r.Valid) : r.code &&& 0x80 = 0 := by
  have hlt : r.code.toNat < 0x80 := BitVec.lt_def.mp hr.2
  have hmsb : r.code.msb = false := by
    rw [BitVec.msb_eq_false_iff_two_mul_lt]
    omega
  have hbit : r.code.getLsbD 7 = false := hmsb
  rw [show (0x80 : BitVec 8) = BitVec.twoPow 8 7 from rfl, BitVec.and_twoPow, hbit]
  rfl

theorem Valid.code_ne {r : Record} (hr : r.Valid) : r.code ≠ 0x87 := by
  intro h
  have hlt : r.code < 0x80 := hr.2
  rw [h] at hlt
  exact absurd hlt (by decide)

theorem Valid.code_ne_zero {r : Record} (hr : r.Valid) : r.code ≠ 0 := by
  intro h
  have hlow := hr.1
  rw [h] at hlow
  exact absurd hlow (by decide)

/-- No more than the address and the target can be missing of a record, for the code is not 0. -/
theorem Valid.missing_le {l : List (BitVec 8)} (h : (read l).Valid) :
    (read l).bytes.length - l.length ≤ 8 := by
  by_contra hlong
  obtain ⟨m, hm⟩ := Nat.exists_eq_add_of_le (Nat.lt_of_not_le hlong)
  have hzeros : (read l).remember.bytes = List.replicate 9 0 := by
    have hbytes := read_bytes l
    rw [padded_eq, hm, Nat.add_comm, List.replicate_add, ← List.append_assoc] at hbytes
    exact List.append_inj_right' hbytes rfl
  exact h.code_ne_zero (List.cons.inj hzeros).1

/-- A record that was written is read again. -/
theorem read_append {r : Record} (hr : r.Valid) (l : List (BitVec 8)) :
    read (r.bytes ++ l) = r := by
  have haddress : uintAt (uintBytes r.address ++ (uintBytes r.target ++ l)) = r.address :=
    uintAt_uintBytes r.address _
  have htarget : uintAt ((uintBytes r.address ++ (uintBytes r.target ++ l)).drop 4) = r.target :=
    uintAt_uintBytes r.target l
  have hsplit : splitCounts (r.bytes ++ l) =
      (r.counts, r.code :: (uintBytes r.address ++ (uintBytes r.target ++ l))) := by
    rw [bytes, remember_bytes, List.append_assoc, List.cons_append, List.append_assoc]
    exact splitCounts_append r hr.code_ne
  simp only [read, hsplit, List.headD_cons, List.tail_cons, haddress, htarget]

end Record

/-- A function is called from two places. -/
def twoCalls : List Record :=
  [.call 0x8000 0x9000, .ret 0x9010 0x8005, .call 0x8100 0x9000, .ret 0x9010 0x8105]

end TraceFile
