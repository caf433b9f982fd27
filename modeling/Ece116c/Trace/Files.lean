import Ece116c.Trace.Format

/-! The programs `ct` and `predict` on files. What is read of a file is decided by its magic number,
    so compressed bytes in a file of their own are read as they were written only if they begin with
    none, and that is so exactly if what was compressed began with none. -/

namespace TraceFile

open Predict Reading

variable {z : Commands} {bufSize : ℕ+} {source : Source} {file code : List (BitVec 8)}

/-- `main` of `predict.cc`: what is simulated of the file it is given. -/
def predictMain (z : Commands) (bufSize : ℕ+) (u : MyUpdate) (bi : BranchInfo)
    (file : List (BitVec 8)) : Option Simulation :=
  predictFile bufSize u bi (initTrace z (.named file))

/-! ### Magic numbers -/

/-- A byte and a zero are no magic number. -/
theorem unmarked_zeros (file : List (BitVec 8)) (k : ℕ) :
    Unmarked (file ++ List.replicate k 0) ↔ Unmarked file := by
  match file with
  | _ :: _ :: _ => rfl
  | [b] => cases k <;> simp [Unmarked, gzipMagic, bzip2Magic, List.replicate_succ]
  | [] =>
    match k with
    | 0 | 1 => simp [Unmarked, gzipMagic, bzip2Magic]
    | k + 2 => simp [Unmarked, gzipMagic, bzip2Magic, List.replicate_succ]

theorem unmarked_append {l m m' : List (BitVec 8)} (hl : 2 ≤ l.length) :
    Unmarked (l ++ m) ↔ Unmarked (l ++ m') := by
  rw [Unmarked, Unmarked, List.take_append_of_le_length hl, List.take_append_of_le_length hl]

/-- Nothing is predicted of the first branch. -/
theorem encode_init {r : Record} (hr : r.Valid) :
    (Globals.init.encode r.remember).1 = r.remember.bytes := by
  have hnone : ∀ b, searchRemember r.remember Globals.init.predictRemember b = none := by
    intro b
    refine List.find?_eq_none.mpr fun k _ => ?_
    have hcode : ((0 : BitVec 8) == r.remember.code) = false :=
      beq_eq_false_iff_ne.mpr hr.code_ne_zero.symm
    simp only [Remember.equal, Globals.init, Globals.predictRemember, Remember.init, hcode,
      Bool.false_and, Bool.false_eq_true, not_false_eq_true]
  simp only [Globals.encode, hnone]

/-- So the compressed bytes begin as the others do. -/
theorem unmarked_compress (h : compress bufSize file = some code) :
    Unmarked code ↔ Unmarked file := by
  obtain ⟨out, hout, rfl⟩ := compress_iff.mp h
  obtain ⟨rs, k, hk, hrs, hfile, rfl⟩ := writeRecords_of_yields hout
  rw [← unmarked_zeros file k, hfile]
  cases rs with
  | nil => rfl
  | cons r rs =>
    have hr : r.Valid := hrs r List.mem_cons_self
    have hfirst : r.countBytes ++ (Globals.init.encode r.remember).1 = r.bytes := by
      rw [encode_init hr, Record.bytes]
    simp only [writeRecords, List.flatMap_cons, hfirst]
    exact unmarked_append (r.le_length_bytes.trans' (by decide))

/-! ### `ct` -/

/-- **Nothing is lost**, but a record that breaks off comes back with zeros added: from wherever the
    compressed bytes are handed over, and from a file of their own if they begin with no magic
    number. -/
theorem ct_inverts (bufSize' : ℕ+) (h : ct z bufSize true source = some code) :
    (Unmarked code ↔ Unmarked (initTrace z source)) ∧
      ∃ k ≤ 8, (Whole (initTrace z source) → k = 0) ∧
        (∀ source', initTrace z source' = code →
          ct z bufSize' false source' = some (initTrace z source ++ List.replicate k 0)) ∧
        (Unmarked code →
          ct z bufSize' false (.named code) = some (initTrace z source ++ List.replicate k 0)) := by
  obtain ⟨k, hk, hdecompress, hwhole⟩ := decompress_compress bufSize' h
  have hany : ∀ source', initTrace z source' = code →
      ct z bufSize' false source' = some (initTrace z source ++ List.replicate k 0) := by
    rintro source' rfl
    exact hdecompress
  exact ⟨unmarked_compress h, k, hk, hwhole, hany, fun hcode => hany _ (initTrace_named hcode)⟩

/-- `zcat` of a file with one stored block, and `bzcat` of what is no archive. -/
def stored : Commands := ⟨fun file => (file.drop 15).take (file.length - 23), fun _ => []⟩

/-- A call that breaks off. -/
def brokenCall : List (BitVec 8) := [0x50, 0, 0x80, 4, 8, 0, 0x90, 4]

/-- It is in a `.gz` file, and what is written of it in a file of its own. -/
theorem ct_inverts_broken :
    ct stored 3 true (.named ([0x1F, 0x8B, 8, 0, 0, 0, 0, 0, 0, 3, 1, 8, 0, 0xF7, 0xFF] ++
      brokenCall ++ [0x5B, 0xF8, 0xAC, 0x68, 8, 0, 0, 0])) = some (brokenCall ++ [0]) ∧
    ∃ k ≤ 8, ct stored 5 false (.named (brokenCall ++ [0])) =
      some (brokenCall ++ List.replicate k 0) := by
  have h : ct stored 3 true (.named ([0x1F, 0x8B, 8, 0, 0, 0, 0, 0, 0, 3, 1, 8, 0, 0xF7, 0xFF] ++
    brokenCall ++ [0x5B, 0xF8, 0xAC, 0x68, 8, 0, 0, 0])) = some (brokenCall ++ [0]) := by
    decide +kernel
  obtain ⟨-, k, hk, -, -, hnamed⟩ := ct_inverts 5 h
  exact ⟨h, k, hk, hnamed (by decide)⟩

/-- The second return of `twoCalls` costs one byte, its target is that of the stack. -/
def twoCallsCode : List (BitVec 8) :=
  [0x50, 0, 0x80, 0, 0, 0, 0x90, 0, 0, 0x70, 0x10, 0x90, 0, 0, 5, 0x80, 0, 0,
    0x50, 0, 0x81, 0, 0, 0, 0x90, 0, 0, 8]

theorem ct_twoCalls :
    ct stored 4 true (.named (twoCalls.flatMap Record.bytes)) = some twoCallsCode := by
  decide +kernel

/-- What is accepted of a source are records, the last of which may break off before its end. -/
theorem ct_accepts : (∃ code, ct z bufSize true source = some code) ↔
    ∃ k ≤ 8, Whole (initTrace z source ++ List.replicate k 0) :=
  compress_accepts

/-- Two records that begin with `BZ` are handed to `bzip2`, and nothing comes through. -/
example : ct stored 4 true (.named [0x42, 0x5A, 0, 0, 0, 0, 1, 0, 0,
    0x10, 4, 1, 0, 0, 0, 2, 0, 0]) = some [] := by
  decide

/-- What `-d` writes are files of records, and they come back as they are. -/
theorem ct_whole (bufSize' : ℕ+) (h : ct z bufSize false source = some file) :
    Whole file ∧ (∀ source', initTrace z source' = file → ct z bufSize' false source' = some file) ∧
      (Unmarked file → ct z bufSize' false (.named file) = some file) := by
  obtain ⟨hwhole, hagain⟩ := decompress_whole bufSize' h
  have hany : ∀ source', initTrace z source' = file →
      ct z bufSize' false source' = some file := by
    rintro source' rfl
    exact hagain
  exact ⟨hwhole, hany, fun hfile => hany _ (initTrace_named hfile)⟩

theorem ct_whole_calls : Whole (twoCalls.flatMap Record.bytes) ∧
    ct stored 9 false (.named (twoCalls.flatMap Record.bytes)) =
      some (twoCalls.flatMap Record.bytes) := by
  have h : ct stored 2 false (.stdin twoCallsCode) = some (twoCalls.flatMap Record.bytes) := by
    decide +kernel
  obtain ⟨hwhole, -, hnamed⟩ := ct_whole 9 h
  exact ⟨hwhole, hnamed (by decide)⟩

/-- The bytes do not grow, and shrink nine times at most. -/
theorem ct_size (h : ct z bufSize true source = some code) (hfile : Whole (initTrace z source)) :
    code.length ≤ (initTrace z source).length ∧ (initTrace z source).length ≤ 9 * code.length :=
  compress_size h hfile

theorem ct_size_calls :
    twoCallsCode.length ≤ (twoCalls.flatMap Record.bytes).length ∧
      (twoCalls.flatMap Record.bytes).length ≤ 9 * twoCallsCode.length := by
  have h : initTrace stored (.named (twoCalls.flatMap Record.bytes)) =
    twoCalls.flatMap Record.bytes := initTrace_named (by decide)
  have hsize := ct_size ct_twoCalls ⟨twoCalls, by decide, h⟩
  rwa [h] at hsize

/-! ### `predict` -/

/-- Compressing the bytes of a file changes nothing of what is simulated. -/
theorem predictMain_ct (bufSize' bufSize'' : ℕ+) (u : MyUpdate) (bi : BranchInfo)
    (h : ct z bufSize true source = some code)
    (hfile : initTrace z (.named file) = initTrace z source) :
    (∀ file', initTrace z (.named file') = code →
      predictMain z bufSize' u bi file' = predictMain z bufSize'' u bi file) ∧
      (Unmarked code → predictMain z bufSize' u bi code = predictMain z bufSize'' u bi file) := by
  have hany : ∀ file', initTrace z (.named file') = code →
      predictMain z bufSize' u bi file' = predictMain z bufSize'' u bi file := by
    rintro file' rfl
    rw [predictMain, predictMain, hfile]
    exact predictFile_compress u bi h
  exact ⟨hany, fun hcode => hany _ (initTrace_named hcode)⟩

theorem predictMain_ct_calls :
    predictMain stored 5 ⟨⟨false, 0⟩, fun _ => 0, 0, 0, 0, fun _ => false, false, 0⟩ ⟨0, 0, 0⟩
        twoCallsCode =
      predictMain stored 10000 ⟨⟨false, 0⟩, fun _ => 0, 0, 0, 0, fun _ => false, false, 0⟩
        ⟨0, 0, 0⟩ (twoCalls.flatMap Record.bytes) :=
  (predictMain_ct _ _ _ _ ct_twoCalls rfl).2 (by decide)

end TraceFile
