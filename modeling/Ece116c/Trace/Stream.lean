import Mathlib.Tactic.IntervalCases
import Ece116c.Trace.Record

/-! The programs as readers of lists: what a call of `read_trace` takes from the bytes not read yet,
    what it puts out and how it leaves the tables. The buffer does not show in it. -/

namespace TraceFile

open Predict Reading

/-! ### Codes -/

/-- The stack behind a branch: calls push the address of the instruction after them. -/
def Ras.after (s : Ras) (r : Remember) : Ras :=
  if (r.code >>> 4).toNat = 5 then s.push (r.address + 5)
  else if (r.code >>> 4).toNat = 6 then s.push (r.address + 2)
  else s

def Globals.after (g : Globals) (r : Remember) : Globals := { g with ras := g.ras.after r }

/-- The record of a branch. -/
def Remember.record (r : Remember) (counts : Option (BitVec 8 × BitVec 8)) : Record :=
  ⟨counts, r.code, r.address, r.target⟩

theorem Remember.taken_of_valid {r : Remember} {counts : Option (BitVec 8 × BitVec 8)}
    (h : (r.record counts).Valid) : r.taken = true := by
  refine r.taken_of_code fun h0 => ?_
  have hcode : 0x10 ≤ r.code := h.1
  rw [h0] at hcode
  exact absurd hcode (by decide)

/-- `classify` goes by the codes of the format. -/
theorem classify_eq (r : Remember) (counts : Option (BitVec 8 × BitVec 8)) (s : Ras) :
    classify r s =
      if (r.record counts).Valid then some ((r.record counts).trace, s.after r) else none := by
  have hhigh : (r.code >>> 4).toNat = r.code.toNat / 16 := by
    simp [BitVec.toNat_ushiftRight, Nat.shiftRight_eq_div_pow]
  have hvalid : (r.record counts).Valid ↔ 0x10 ≤ r.code.toNat ∧ r.code.toNat < 0x80 := by
    simp [Record.Valid, Remember.record, BitVec.le_def, BitVec.lt_def]
  by_cases h : (r.record counts).Valid
  · have htaken := r.taken_of_valid h
    have hbounds := hvalid.mp h
    obtain ⟨n, hn⟩ : ∃ n, n = (r.code >>> 4).toNat := ⟨_, rfl⟩
    have hlow : 1 ≤ n := by omega
    have hup : n ≤ 7 := by omega
    rw [if_pos h]
    simp only [classify, Record.trace, Record.brFlags, Remember.record, Ras.after, ← hn, htaken]
    interval_cases n <;> rfl
  · have hout : ¬ (0x10 ≤ r.code.toNat ∧ r.code.toNat < 0x80) := hvalid.not.mp h
    rw [if_neg h, classify]
    split
    case h_8 => rfl
    all_goals omega

theorem classify_record (r : Record) (s : Ras) :
    classify (Remember.read r.code r.address r.target) s =
      if r.Valid then some (r.trace, s.after r.remember) else none :=
  classify_eq r.remember r.counts s

/-! ### Decoding -/

/-- The prefix of a patched return address, and what is behind it. -/
def splitPrefix (l : List (BitVec 8)) : Option (Bool × Bool × List (BitVec 8)) :=
  if l.headD 0 &&& 0x80 ≠ 0 then
    if l.headD 0 = 0x82 then some (true, false, l.tail)
    else if l.headD 0 = 0x83 then some (false, true, l.tail)
    else none
  else some (false, false, l)

/-! The three cases of a correct prediction. -/

section Recall

variable {g : Globals} {x y : Bool} {c : BitVec 8}

theorem recall_plain (hcode : (g.predictRemember (place c)).code ≠ 0x70) :
    recalled g x y c = ((g.predictRemember (place c)).toRemember,
      g.updateRemember (g.predictRemember (place c)).toRemember (some (place c))) := by
  simp only [recalled, if_neg hcode]

theorem recall_predicted (hcode : (g.predictRemember (place c)).code = 0x70) (hc : 8 ≤ c) :
    recalled g x y c =
      ({ (g.predictRemember (place c)).toRemember with target := patch x y g.ras.pop.1 },
        { g with ras := g.ras.pop.2 }.updateRemember
          { (g.predictRemember (place c)).toRemember with target := patch x y g.ras.pop.1 }
          (some (place c))) := by
  simp only [recalled, if_pos hcode, decide_eq_true hc, if_true]

theorem recall_flushed (hcode : (g.predictRemember (place c)).code = 0x70) (hc : ¬ 8 ≤ c) :
    recalled g x y c = ((g.predictRemember (place c)).toRemember,
      { g with ras := g.ras.pop.2.init }.updateRemember
        (g.predictRemember (place c)).toRemember (some (place c))) := by
  simp only [recalled, if_pos hcode, decide_eq_false hc, Bool.false_eq_true, if_false]

end Recall

/-- A branch, the globals behind it and the bytes behind it. -/
def Globals.decode (g : Globals) (l : List (BitVec 8)) :
    Option (Remember × Globals × List (BitVec 8)) :=
  (splitPrefix l).map fun (offBy2, offBy3, l) =>
    let c := l.headD 0
    if c < 16 then
      let (r, g) := recalled g offBy2 offBy3 c
      (r, g, l.tail)
    else
      let r := Remember.read c (uintAt l.tail) (uintAt (l.tail.drop 4))
      let ras := if r.code = 0x70 then g.ras.missed r.target else g.ras
      (r, { g with ras := ras }.updateRemember r none, l.tail.drop 8)

/-! ### The readers -/

/-- The next record of a compressed file, instruction counts being let through or not. -/
def decodeRecord (pass : Bool) (s : Globals × List (BitVec 8)) :
    Outcome Record (Globals × List (BitVec 8)) :=
  if s.2 = [] then .ended
  else
    let (counts, l) := if pass then splitCounts s.2 else (none, s.2)
    match s.1.decode l with
    | none => .failed
    | some (r, g, l) =>
      if (r.record counts).Valid then .next (r.record counts) (g.after r, l) else .failed

/-- The next record of a plain file, and what is written for it. -/
def encodeRecord (s : Globals × List (BitVec 8)) :
    Outcome (Record × List (BitVec 8)) (Globals × List (BitVec 8)) :=
  if s.2 = [] then .ended
  else
    let r := Record.read s.2
    let (out, g) := s.1.encode r.remember
    if r.Valid then .next (r, r.countBytes ++ out) (g.after r.remember, s.2.drop r.bytes.length)
    else .failed

/-! ### The programs are these readers -/

variable {bufSize : ℕ+}

/-- The globals and the bytes not read yet. -/
def view (s : Globals × Input bufSize) : Globals × List (BitVec 8) := (s.1, s.2.remaining)

theorem view_eq (g : Globals) (i : Input bufSize) : view (g, i) = (g, i.remaining) := rfl

theorem readPrefix_split {i : Input bufSize} {l : List (BitVec 8)} (hi : i.remaining = l.tail) :
    readPrefix (l.headD 0) i = none ∧ splitPrefix l = none ∨
      ∃ x y, ∃ j : Input bufSize, ∃ m, readPrefix (l.headD 0) i = some (x, y, m.headD 0, j) ∧
        splitPrefix l = some (x, y, m) ∧ j.remaining = m.tail := by
  have hbyte : i.readByte = (l.tail.headD 0, i.readByte.2) := by
    rw [← hi, ← i.readByte_fst]
  have hrest : i.readByte.2.remaining = l.tail.tail := by rw [i.readByte_remaining, hi]
  rw [readPrefix, splitPrefix, hbyte]
  split
  · split
    · exact .inr ⟨true, false, i.readByte.2, l.tail, rfl, rfl, hrest⟩
    · split
      · exact .inr ⟨false, true, i.readByte.2, l.tail, rfl, rfl, hrest⟩
      · exact .inl ⟨rfl, rfl⟩
  · exact .inr ⟨false, false, i, l, rfl, rfl, hi⟩

/-- `readBranch` behind the prefix. -/
theorem readBranch_decode {g : Globals} {x y : Bool} {i : Input bufSize} {l m : List (BitVec 8)}
    (hl : splitPrefix l = some (x, y, m)) (hi : i.remaining = m.tail) :
    g.decode l = some ((readBranch g x y (m.headD 0) i).1, (readBranch g x y (m.headD 0) i).2.1,
      (readBranch g x y (m.headD 0) i).2.2.remaining) := by
  rw [Globals.decode, hl, readBranch]
  simp only [Option.map_some]
  split
  · simp [hi]
  · simp [readRemember, hi]

theorem passCounts_split {i : Input bufSize} {l : List (BitVec 8)} (hi : i.remaining = l.tail) :
    (passCounts (l.headD 0) i).1 = Record.countBytes ⟨(splitCounts l).1, 0, 0, 0⟩ ∧
      (passCounts (l.headD 0) i).2.1 = (splitCounts l).2.headD 0 ∧
        (passCounts (l.headD 0) i).2.2.remaining = (splitCounts l).2.tail := by
  rw [passCounts, splitCounts]
  split
  · rename_i h
    rw [h]
    simp [Record.countBytes, hi]
  · simp [Record.countBytes, hi]

theorem readTrace_view (s : Globals × Input bufSize) :
    (readTrace s).map id view = (decodeRecord false (view s)).map Record.trace id := by
  obtain ⟨g, i⟩ := s
  rw [view_eq, readTrace, decodeRecord]
  by_cases h : i.remaining = []
  · simp [h, Outcome.map]
  · rw [if_neg (by simpa using h), if_neg h]
    have hrest := i.readByte_remaining
    rw [i.readByte_fst]
    rcases readPrefix_split hrest with ⟨hi, hl⟩ | ⟨x, y, j, m, hi, hl, hj⟩
    · simp only [Globals.decode, hi, hl, Option.map_none, Bool.false_eq_true, if_false]
      rfl
    · simp only [hi, readBranch_decode hl hj, classify_eq _ none, Bool.false_eq_true,
        if_false]
      by_cases hr : ((readBranch g x y (m.headD 0) j).1.record none).Valid
      · rw [if_pos hr, if_pos hr]
        rfl
      · rw [if_neg hr, if_neg hr]
        rfl

/-- What is recalled is the place of the table, the target of a predicted return apart: the
    assertion of the decompressor holds. -/
theorem recall_equal (g : Globals) (x y : Bool) (c : BitVec 8) :
    (recalled g x y c).1.equal (g.predictRemember (place c)).toRemember (decide (8 ≤ c)) =
      true := by
  by_cases hcode : (g.predictRemember (place c)).code = 0x70
  · by_cases hc : 8 ≤ c
    · simp only [recall_predicted hcode hc, Remember.equal, beq_self_eq_true, decide_eq_true hc,
        Bool.true_or, Bool.and_self]
    · simp only [recall_flushed hcode hc, Remember.equal, beq_self_eq_true, Bool.or_true,
        Bool.and_self]
  · simp only [recall_plain hcode, Remember.equal, beq_self_eq_true, Bool.or_true, Bool.and_self]

theorem not_failed {g : Globals} {x y : Bool} {c : BitVec 8} {i : Input bufSize} :
    ¬ (c < 16 ∧ (readBranch g x y c i).1.equal (g.predictRemember (place c)).toRemember
      (decide (8 ≤ c)) = false) := by
  rintro ⟨hc, h⟩
  have hbranch : (readBranch g x y c i).1 = (recalled g x y c).1 := by rw [readBranch, if_pos hc]
  rw [hbranch, recall_equal] at h
  cases h

theorem decompressTrace_view (s : Globals × Input bufSize) :
    (decompressTrace s).map id view =
      (decodeRecord true (view s)).map (fun r => (r.bytes, r.trace)) id := by
  obtain ⟨g, i⟩ := s
  rw [view_eq, decompressTrace, decodeRecord]
  by_cases h : i.remaining = []
  · simp [h, Outcome.map]
  · rw [if_neg (by simpa using h), if_neg h]
    have hrest := i.readByte_remaining
    rw [i.readByte_fst]
    obtain ⟨hcounts, hcode, hbehind⟩ := passCounts_split hrest
    simp only [hcounts, hcode]
    rcases readPrefix_split hbehind with ⟨hi, hl⟩ | ⟨x, y, j, m, hi, hl, hj⟩
    · simp only [Globals.decode, hi, hl, Option.map_none, if_true]
      rfl
    · simp only [hi, readBranch_decode hl hj, if_neg not_failed, if_true,
        classify_eq _ (splitCounts i.remaining).1]
      by_cases hr : ((readBranch g x y (m.headD 0) j).1.record (splitCounts i.remaining).1).Valid
      · rw [if_pos hr, if_pos hr]
        rfl
      · rw [if_neg hr, if_neg hr]
        rfl

theorem passCounts_read (i : Input bufSize) :
    ∃ j : Input bufSize, j.remaining = (splitCounts i.remaining).2.tail ∧
      passCounts (i.remaining.headD 0) i.readByte.2 =
        ((Record.read i.remaining).countBytes, (Record.read i.remaining).code, j) := by
  obtain ⟨hcounts, hcode, hbehind⟩ := passCounts_split i.readByte_remaining
  exact ⟨_, hbehind, Prod.ext hcounts (Prod.ext hcode rfl)⟩

theorem compressTrace_view (s : Globals × Input bufSize) :
    (compressTrace s).map id view =
      (encodeRecord (view s)).map (fun r => (r.2, r.1.trace)) id := by
  obtain ⟨g, i⟩ := s
  rw [view_eq, compressTrace, encodeRecord]
  by_cases h : i.remaining = []
  · simp [h, Outcome.map]
  · rw [if_neg (by simpa using h), if_neg h]
    obtain ⟨j, hj, hpass⟩ := passCounts_read i
    rw [i.readByte_fst]
    have haddress : j.readUint.1 = (Record.read i.remaining).address := by
      rw [j.readUint_fst, hj]
      rfl
    have htarget : j.readUint.2.readUint.1 = (Record.read i.remaining).target := by
      rw [Input.readUint_fst, Input.readUint_remaining, hj]
      rfl
    have hbehind : j.readUint.2.readUint.2.remaining =
        i.remaining.drop (Record.read i.remaining).bytes.length := by
      rw [Input.readUint_remaining, Input.readUint_remaining, hj, List.drop_drop,
        Record.drop_read]
    simp only [hpass, haddress, htarget, classify_record]
    by_cases hr : (Record.read i.remaining).Valid
    · rw [if_neg (not_not_intro hr.high_bit), if_pos hr, if_pos hr]
      simp only [Outcome.map, view_eq, hbehind]
      rfl
    · rw [if_neg hr, if_neg hr]
      split <;> rfl

end TraceFile
