import Ece116c.Trace.RoundTrip

/-! What the loops do with the bytes of whole files: which are accepted, that compression loses
    nothing, and that the predictor sees the same branches in compressed bytes as in the
    original. -/

namespace TraceFile

open Predict Reading

/-! ### The programs as runs of the readers of lists -/

variable {g : Globals} {l : List (BitVec 8)}

theorem encodeRecord_length (s : Globals × List (BitVec 8)) (a : Record × List (BitVec 8))
    (s' : Globals × List (BitVec 8)) (h : encodeRecord s = .next a s') :
    s'.2.length < s.2.length := by
  obtain ⟨hl, -, rfl, rfl⟩ := encodeRecord_next h
  have hpos := List.length_pos_iff.mpr hl
  have hlong := (Record.read s.2).le_length_bytes
  simp only [List.length_drop]
  omega

theorem splitPrefix_some {x y : Bool} {m : List (BitVec 8)} (h : splitPrefix l = some (x, y, m)) :
    m = l ∨ m = l.tail := by
  rw [splitPrefix] at h
  split at h
  · split at h
    · cases h
      exact .inr rfl
    · split at h
      · cases h
        exact .inr rfl
      · cases h
  · cases h
    exact .inl rfl

theorem decode_length {r : Remember} {g' : Globals} {m : List (BitVec 8)}
    (h : g.decode l = some (r, g', m)) : m.length ≤ l.length - 1 := by
  rw [Globals.decode, Option.map_eq_some_iff] at h
  obtain ⟨⟨x, y, k⟩, hsplit, hk⟩ := h
  have hle : k.length ≤ l.length := by
    rcases splitPrefix_some hsplit with rfl | rfl <;> simp
  simp only at hk
  split at hk
  · cases hk
    simp only [List.length_tail]
    omega
  · cases hk
    simp only [List.length_drop, List.length_tail]
    omega

theorem decodeRecord_next {pass : Bool} {r : Record} {s : Globals × List (BitVec 8)}
    (h : decodeRecord pass (g, l) = .next r s) :
    l ≠ [] ∧ r.Valid ∧ ∃ x, g.decode (if pass then splitCounts l else (none, l)).2 = some x ∧
      r = x.1.record (if pass then splitCounts l else (none, l)).1 ∧
      s = (x.2.1.after x.1, x.2.2) := by
  rw [decodeRecord] at h
  by_cases hl : l = []
  · rw [if_pos hl] at h
    cases h
  · rw [if_neg hl] at h
    cases hdecode : g.decode (if pass then splitCounts l else (none, l)).2 with
    | none =>
      simp only [hdecode] at h
      cases h
    | some x =>
      simp only [hdecode] at h
      by_cases hr : (x.1.record (if pass then splitCounts l else (none, l)).1).Valid
      · rw [if_pos hr] at h
        cases h
        exact ⟨hl, hr, x, rfl, rfl, rfl⟩
      · rw [if_neg hr] at h
        cases h

theorem decodeRecord_length {pass : Bool} (s : Globals × List (BitVec 8)) (r : Record)
    (s' : Globals × List (BitVec 8)) (h : decodeRecord pass s = .next r s') :
    s'.2.length < s.2.length := by
  obtain ⟨hl, -, ⟨x, g', m⟩, hx, -, rfl⟩ := decodeRecord_next h
  have hpos := List.length_pos_iff.mpr hl
  have hm := decode_length hx
  have hcounts : (if pass then splitCounts s.2 else (none, s.2)).2.length ≤ s.2.length := by
    split
    · rw [splitCounts]
      split
      · simp only [List.length_tail]
        omega
      · exact le_refl _
    · exact le_refl _
  simp only
  omega

variable {bufSize : ℕ+} {file code : List (BitVec 8)}

theorem compress_iff : compress bufSize file = some code ↔
    ∃ out, Yields encodeRecord (Globals.init, file) out ∧ code = out.flatMap (·.2) := by
  rw [compress, runTrace, loop_map compressTrace_view, view_eq, Input.init_remaining]
  simp only [Option.map_map, Option.map_eq_some_iff]
  refine exists_congr fun out =>
    and_congr (loop_iff encodeRecord_length (Nat.lt_succ_self _)) ?_
  rw [Function.comp_apply, List.flatMap_map, eq_comm]

theorem decompress_iff : decompress bufSize code = some file ↔
    ∃ rs, Yields (decodeRecord true) (Globals.init, code) rs ∧ file = rs.flatMap Record.bytes := by
  rw [decompress, runTrace, loop_map decompressTrace_view, view_eq, Input.init_remaining]
  simp only [Option.map_map, Option.map_eq_some_iff]
  refine exists_congr fun out =>
    and_congr (loop_iff decodeRecord_length (Nat.lt_succ_self _)) ?_
  rw [Function.comp_apply, List.flatMap_map, eq_comm]

theorem readTraces_iff {ts : List Trace} : readTraces bufSize file = some ts ↔
    ∃ rs, Yields (decodeRecord false) (Globals.init, file) rs ∧ ts = rs.map Record.trace := by
  rw [readTraces, loop_map readTrace_view, view_eq, Input.init_remaining]
  simp only [Option.map_eq_some_iff]
  exact exists_congr fun out =>
    and_congr (loop_iff decodeRecord_length (Nat.lt_succ_self _)) eq_comm

/-! ### What is accepted -/

/-- A file of records. -/
def Whole (file : List (BitVec 8)) : Prop :=
  ∃ rs : List Record, (∀ r ∈ rs, r.Valid) ∧ file = rs.flatMap Record.bytes

/-- The compressor takes files of records, the last of which may break off before its end. -/
theorem compress_accepts : (∃ code, compress bufSize file = some code) ↔
    ∃ k ≤ 8, Whole (file ++ List.replicate k 0) := by
  constructor
  · rintro ⟨code, h⟩
    obtain ⟨out, hout, -⟩ := compress_iff.mp h
    obtain ⟨rs, k, hk, hrs, hfile, -⟩ := writeRecords_of_yields hout
    exact ⟨k, hk, rs, hrs, hfile⟩
  · rintro ⟨k, hk, rs, hrs, hfile⟩
    exact ⟨_, compress_iff.mpr ⟨_, yields_writeRecords hk hrs hfile, rfl⟩⟩

/-- Nothing is lost, but a record that breaks off comes back with zeros added. -/
theorem decompress_compress (bufSize' : ℕ+) (h : compress bufSize file = some code) :
    ∃ k, k ≤ 8 ∧ decompress bufSize' code = some (file ++ List.replicate k 0) ∧
      (Whole file → k = 0) := by
  obtain ⟨out, hout, rfl⟩ := compress_iff.mp h
  obtain ⟨rs, k, hk, hrs, hfile, rfl⟩ := writeRecords_of_yields hout
  have hdecode := decode_of_encode hout
  rw [writeRecords_fst] at hdecode
  refine ⟨k, hk, decompress_iff.mpr ⟨rs, hdecode, hfile⟩, ?_⟩
  rintro ⟨rs', hrs', hwhole⟩
  have hsame := hout.unique (yields_writeRecords (k := 0) (by simp) hrs' (by simpa using hwhole))
  have hrecords := congrArg (List.map (·.1)) hsame
  rw [writeRecords_fst, writeRecords_fst] at hrecords
  subst hrecords
  simpa [hwhole] using hfile

theorem yields_whole {rs : List Record} (hrs : ∀ r ∈ rs, r.Valid) (g : Globals) :
    Yields encodeRecord (g, rs.flatMap Record.bytes) (writeRecords g rs) :=
  yields_writeRecords (k := 0) (by simp) hrs (by simp)

theorem writeRecords_length (g : Globals) (rs : List Record) :
    ((writeRecords g rs).flatMap (·.2)).length ≤ (rs.flatMap Record.bytes).length ∧
      (rs.flatMap Record.bytes).length ≤ 9 * ((writeRecords g rs).flatMap (·.2)).length := by
  induction rs generalizing g with
  | nil => simp [writeRecords]
  | cons r rs ih =>
    obtain ⟨hone, hnine⟩ := encode_length g r.remember
    obtain ⟨hle, hge⟩ := ih ((g.encode r.remember).2.after r.remember)
    have hbytes : r.bytes.length = r.countBytes.length + 9 := by
      rw [Record.bytes, List.length_append, Record.remember_bytes_length]
    simp only [writeRecords, List.flatMap_cons, List.length_append, hbytes]
    omega

/-- A file does not grow, and shrinks nine times at most. -/
theorem compress_size (h : compress bufSize file = some code) (hfile : Whole file) :
    code.length ≤ file.length ∧ file.length ≤ 9 * code.length := by
  obtain ⟨rs, hrs, rfl⟩ := hfile
  obtain ⟨out, hout, rfl⟩ := compress_iff.mp h
  rw [hout.unique (yields_whole hrs Globals.init)]
  exact writeRecords_length _ _

/-! ### Plain files -/

/-- The decompressor takes a record of nine bytes for what it is, whatever is in its tables. -/
theorem decodeRecord_plain (hl : l ≠ []) (hr : (Record.read l).Valid) (g : Globals) :
    ∃ g', decodeRecord true (g, l) =
      .next (Record.read l) (g', l.drop (Record.read l).bytes.length) := by
  have hlow : ¬ (splitCounts l).2.headD 0 < 16 := BitVec.not_lt.mpr hr.1
  have hdecode := decode_code (g := g) hlow hr.high_bit
  rw [decodeRecord, if_neg hl, Record.drop_read]
  simp only [if_true, hdecode]
  exact ⟨_, if_pos hr⟩

/-- So a file of records is read as these records, compressed or not. -/
theorem decode_plain {out : List (Record × List (BitVec 8))}
    (h : Yields encodeRecord (g, l) out) (g' : Globals) :
    Yields (decodeRecord true) (g', l) (out.map (·.1)) := by
  have hended : ∀ s d : Globals × List (BitVec 8), s.2 = d.2 → encodeRecord s = .ended →
      decodeRecord true d = .ended :=
    fun s d hsd hs => decodeRecord_ended.mpr (hsd ▸ encodeRecord_ended.mp hs)
  have hnext : ∀ s d a s', s.2 = d.2 → encodeRecord s = .next a s' →
      ∃ r d', decodeRecord true d = .next r d' ∧ s'.2 = d'.2 ∧ a.1 = r := by
    rintro ⟨g, l⟩ ⟨g', l'⟩ a s' rfl hs
    obtain ⟨hl, hr, rfl, rfl⟩ := encodeRecord_next hs
    obtain ⟨g'', hnext⟩ := decodeRecord_plain hl hr g'
    exact ⟨_, _, hnext, rfl, rfl⟩
  obtain ⟨m, hm, hall⟩ := h.simulate (d := (g', l)) hended hnext rfl
  rwa [map_eq_of_forall₂ hall]

theorem valid_of_yields {pass : Bool} {s : Globals × List (BitVec 8)} {rs : List Record}
    (h : Yields (decodeRecord pass) s rs) : ∀ r ∈ rs, r.Valid :=
  h.forall (P := fun _ => True)
    (fun _ _ _ _ hnext => ⟨trivial, (decodeRecord_next hnext).2.1⟩) trivial

/-- The decompressor writes files of records only, and leaves them as they are. -/
theorem decompress_whole (bufSize' : ℕ+) (h : decompress bufSize code = some file) :
    Whole file ∧ decompress bufSize' file = some file := by
  obtain ⟨rs, hrs, rfl⟩ := decompress_iff.mp h
  have hvalid := valid_of_yields hrs
  have hplain := decode_plain (yields_whole hvalid Globals.init) Globals.init
  rw [writeRecords_fst] at hplain
  exact ⟨⟨rs, hvalid, rfl⟩, decompress_iff.mpr ⟨rs, hplain, rfl⟩⟩

/-- Records are found again in the file they make. -/
theorem records_unique {rs rs' : List Record} (hrs : ∀ r ∈ rs, r.Valid) (hrs' : ∀ r ∈ rs', r.Valid)
    (h : rs.flatMap Record.bytes = rs'.flatMap Record.bytes) : rs = rs' := by
  have hsame := yields_whole hrs Globals.init
  rw [h] at hsame
  rw [← writeRecords_fst Globals.init rs, hsame.unique (yields_whole hrs' Globals.init),
    writeRecords_fst]

/-! ### The predictor's reader -/

theorem splitCounts_eq : (splitCounts l).1 = none ↔ splitCounts l = (none, l) := by
  rw [splitCounts]
  split <;> simp

theorem splitCounts_of_decode {x : Remember × Globals × List (BitVec 8)} (h : g.decode l = some x) :
    splitCounts l = (none, l) := if_neg (headD_of_decode h)

/-- It reads what the decompressor reads, but no instruction counts. -/
theorem decodeRecord_false {r : Record} {s s' : Globals × List (BitVec 8)} :
    decodeRecord false s = .next r s' ↔ decodeRecord true s = .next r s' ∧ r.counts = none := by
  have hsame : splitCounts s.2 = (none, s.2) → decodeRecord true s = decodeRecord false s := by
    intro h
    simp [decodeRecord, h]
  constructor
  · intro h
    obtain ⟨-, -, x, hx, hr, -⟩ := decodeRecord_next h
    exact ⟨(hsame (splitCounts_of_decode hx)).trans h, by rw [hr]; rfl⟩
  · rintro ⟨h, hcounts⟩
    obtain ⟨-, -, x, -, hr, -⟩ := decodeRecord_next h
    rw [hr] at hcounts
    rw [← hsame (splitCounts_eq.mp hcounts), h]

theorem yields_false {s : Globals × List (BitVec 8)} {rs : List Record} :
    Yields (decodeRecord false) s rs ↔
      Yields (decodeRecord true) s rs ∧ ∀ r ∈ rs, r.counts = none := by
  constructor
  · intro h
    induction h with
    | ended hs => exact ⟨.ended (decodeRecord_ended.mpr (decodeRecord_ended.mp hs)), by simp⟩
    | next hs _ ih =>
      obtain ⟨hnext, hcounts⟩ := decodeRecord_false.mp hs
      exact ⟨.next hnext ih.1, by simpa using ⟨hcounts, ih.2⟩⟩
  · rintro ⟨h, hcounts⟩
    induction h with
    | ended hs => exact .ended (decodeRecord_ended.mpr (decodeRecord_ended.mp hs))
    | next hs _ ih =>
      rw [List.forall_mem_cons] at hcounts
      exact .next (decodeRecord_false.mpr ⟨hs, hcounts.1⟩) (ih hcounts.2)

/-- The predictor reads a file when the decompressor takes it and it has no instruction counts, and
    then its branches are those of the original. -/
theorem readTraces_decompress {bufSize' : ℕ+} {ts : List Trace} :
    readTraces bufSize code = some ts ↔
      ∃ rs : List Record, (∀ r ∈ rs, r.Valid ∧ r.counts = none) ∧
        decompress bufSize' code = some (rs.flatMap Record.bytes) ∧ ts = rs.map Record.trace := by
  rw [readTraces_iff]
  constructor
  · rintro ⟨rs, hrs, rfl⟩
    obtain ⟨htrue, hcounts⟩ := yields_false.mp hrs
    exact ⟨rs, fun r hr => ⟨valid_of_yields hrs r hr, hcounts r hr⟩,
      decompress_iff.mpr ⟨rs, htrue, rfl⟩, rfl⟩
  · rintro ⟨rs, hrs, hcode, rfl⟩
    obtain ⟨rs', htrue, hbytes⟩ := decompress_iff.mp hcode
    obtain rfl := records_unique (fun r hr => (hrs r hr).1) (valid_of_yields htrue) hbytes
    exact ⟨rs, yields_false.mpr ⟨htrue, fun r hr => (hrs r hr).2⟩, rfl⟩

theorem readTraces_eq {rs : List Record} (h : Yields (decodeRecord true) (Globals.init, file) rs) :
    readTraces bufSize file =
      if ∀ r ∈ rs, r.counts = none then some (rs.map Record.trace) else none := by
  split
  · rename_i hcounts
    exact readTraces_iff.mpr ⟨rs, yields_false.mpr ⟨h, hcounts⟩, rfl⟩
  · rename_i hcounts
    cases hread : readTraces bufSize file with
    | none => rfl
    | some ts =>
      obtain ⟨rs', hrs', -⟩ := readTraces_iff.mp hread
      obtain ⟨htrue, hnone⟩ := yields_false.mp hrs'
      obtain rfl := h.unique htrue
      exact absurd hnone hcounts

/-- What is simulated of the bytes of a file. -/
def predictFile (bufSize : ℕ+) (u : MyUpdate) (bi : BranchInfo) (file : List (BitVec 8)) :
    Option Simulation :=
  (readTraces bufSize file).map (main u bi)

/-- Compressing a file changes nothing of it. -/
theorem predictFile_compress {bufSize' bufSize'' : ℕ+} (u : MyUpdate) (bi : BranchInfo)
    (h : compress bufSize file = some code) :
    predictFile bufSize' u bi code = predictFile bufSize'' u bi file := by
  obtain ⟨out, hout, rfl⟩ := compress_iff.mp h
  rw [predictFile, predictFile, readTraces_eq (decode_of_encode hout),
    readTraces_eq (decode_plain hout Globals.init)]

end TraceFile
