import Ece116c.Trace.Stream

/-! Compression loses nothing.

    The decompressor makes the forecast the compressor made and keeps the same tables, so the two
    programs are in one and the same state behind every branch; there is nothing to be related. -/

namespace TraceFile

open Predict Reading

/-! ### One branch -/

variable {g : Globals} {r : Remember}

/-- A place that was found holds the branch, up to the target of a return. -/
theorem searchRemember_some {t : Fin 8 → Entry} {ignore : Bool} {k : Fin 8}
    (h : searchRemember r t ignore = some k) :
    (t k).code = r.code ∧ (t k).taken = r.taken ∧ (t k).address = r.address ∧
      (ignore = true ∨ (t k).target = r.target) := by
  have hequal := List.find?_some h
  simpa [Remember.equal, and_assoc] using hequal

/-- With the target the branch at the place is the branch. -/
theorem retarget {e : Remember} {a : BitVec 32} (hcode : e.code = r.code)
    (htaken : e.taken = r.taken) (haddress : e.address = r.address) (htarget : a = r.target) :
    { e with target := a } = r := by
  obtain ⟨taken, code, address, target, h⟩ := r
  simp only [Remember.mk.injEq]
  exact ⟨htaken, hcode, haddress, htarget⟩

/-- A place that was found with its target holds the branch. -/
theorem searchRemember_exact {t : Fin 8 → Entry} {k : Fin 8}
    (h : searchRemember r t false = some k) : (t k).toRemember = r := by
  obtain ⟨hcode, htaken, haddress, htarget⟩ := searchRemember_some h
  exact retarget (e := (t k).toRemember) hcode htaken haddress (htarget.resolve_left (by simp))

theorem forecast_plain (s : Ras) (hcode : r.code ≠ 0x70) :
    s.forecast r = (⟨false, false, false⟩, s) := by
  rw [Ras.forecast, if_neg hcode]

/-- For a return the forecast is right when the address popped, patched, is the target. -/
theorem forecast_return (s : Ras) (hcode : r.code = 0x70) :
    ((s.forecast r).1.correct = true ∧ (s.forecast r).2 = s.pop.2 ∧
        patch (s.forecast r).1.offBy2 (s.forecast r).1.offBy3 s.pop.1 = r.target) ∨
      s.forecast r = (⟨false, false, false⟩, s.pop.2.init) := by
  simp only [Ras.forecast, if_pos hcode]
  split
  · rename_i h
    exact .inl ⟨rfl, rfl, h⟩
  · split
    · rename_i h
      exact .inl ⟨rfl, rfl, h.symm⟩
    · split
      · rename_i h
        exact .inl ⟨rfl, rfl, h.symm⟩
      · exact .inr rfl

/-- The decompressor drops the stack on the same returns. -/
theorem missed_eq (s : Ras) (hcode : r.code = 0x70) :
    s.missed r.target = (s.forecast r).2 := by
  have h2 : s.pop.1 = r.target - 2 ↔ r.target = s.pop.1 + 2 := by
    rw [eq_sub_iff_add_eq, eq_comm]
  have h3 : s.pop.1 = r.target + 3 ↔ r.target = s.pop.1 - 3 := by
    rw [eq_sub_iff_add_eq, eq_comm]
  simp only [Ras.forecast, if_pos hcode, Ras.missed, ne_eq, h2, h3]
  by_cases hpop : s.pop.1 = r.target
  · rw [if_neg (fun h => h.1 hpop), if_pos hpop]
  · by_cases hadd : r.target = s.pop.1 + 2
    · rw [if_neg (fun h => h.2.1 hadd), if_neg hpop, if_pos hadd]
    · by_cases hsub : r.target = s.pop.1 - 3
      · rw [if_neg (fun h => h.2.2 hsub), if_neg hpop, if_neg hadd, if_pos hsub]
      · rw [if_pos ⟨hpop, hadd, hsub⟩, if_neg hpop, if_neg hadd, if_neg hsub]

/-! ### The bytes -/

/-- The byte of a place. -/
def placeByte (k : Fin 8) (rasCorrect : Bool) : BitVec 8 :=
  BitVec.ofNat 8 (if rasCorrect then k + 8 else k)

theorem placeByte_lt (k : Fin 8) (b : Bool) : placeByte k b < 16 := by
  revert k b
  decide

theorem place_placeByte (k : Fin 8) (b : Bool) : place (placeByte k b) = k := by
  revert k b
  decide

theorem le_placeByte (k : Fin 8) (b : Bool) : 8 ≤ placeByte k b ↔ b = true := by
  revert k b
  decide

theorem high_bit_placeByte (k : Fin 8) (b : Bool) : placeByte k b &&& 0x80 = 0 := by
  revert k b
  decide

/-- A correct prediction is split into the patch and the place. -/
theorem splitPrefix_bytes (f : Forecast) (k : Fin 8) (l : List (BitVec 8)) :
    splitPrefix (f.bytes k ++ l) =
      some (f.offBy2, !f.offBy2 && f.offBy3, placeByte k f.correct :: l) := by
  obtain ⟨correct, offBy2, offBy3⟩ := f
  have hplain : splitPrefix (placeByte k correct :: l) =
      some (false, false, placeByte k correct :: l) :=
    if_neg (not_not_intro (high_bit_placeByte k correct))
  have h82 : (0x82 : BitVec 8) &&& 0x80 ≠ 0 := by decide
  have h83 : (0x83 : BitVec 8) &&& 0x80 ≠ 0 := by decide
  have hne : (0x83 : BitVec 8) ≠ 0x82 := by decide
  cases offBy2 with
  | true => exact (if_pos h82).trans (if_pos rfl)
  | false =>
    cases offBy3 with
    | true => exact (if_pos h83).trans ((if_neg hne).trans (if_pos rfl))
    | false => exact hplain

theorem patch_eq (x y : Bool) (a : BitVec 32) : patch x (!x && y) a = patch x y a := by
  cases x <;> rfl

/-- The whole trace follows a code. -/
theorem decode_code {l : List (BitVec 8)} (hlow : ¬ l.headD 0 < 16)
    (hhigh : l.headD 0 &&& 0x80 = 0) :
    g.decode l =
      some (.read (l.headD 0) (uintAt l.tail) (uintAt (l.tail.drop 4)),
        { g with ras := if l.headD 0 = 0x70 then g.ras.missed (uintAt (l.tail.drop 4)) else g.ras
          }.updateRemember (.read (l.headD 0) (uintAt l.tail) (uintAt (l.tail.drop 4))) none,
        l.tail.drop 8) := by
  have hsplit : splitPrefix l = some (false, false, l) := if_neg (not_not_intro hhigh)
  rw [Globals.decode, hsplit]
  simp only [Option.map_some, if_neg hlow]
  rfl

theorem decode_bytes (hlow : ¬ r.code < 16) (hhigh : r.code &&& 0x80 = 0) (l : List (BitVec 8)) :
    g.decode (r.bytes ++ l) =
      some (.read r.code r.address r.target, { g with
        ras := if r.code = 0x70 then g.ras.missed r.target else g.ras }.updateRemember
          (.read r.code r.address r.target) none, l) := by
  have haddress : uintAt (uintBytes r.address ++ (uintBytes r.target ++ l)) = r.address :=
    uintAt_uintBytes r.address _
  have htarget : uintAt ((uintBytes r.address ++ (uintBytes r.target ++ l)).drop 4) = r.target :=
    uintAt_uintBytes r.target l
  have hcode := decode_code (g := g) (l := r.bytes ++ l) hlow hhigh
  rw [Remember.bytes, List.cons_append, List.append_assoc] at hcode ⊢
  rw [hcode, List.headD_cons, List.tail_cons, haddress, htarget]
  rfl

/-- The place found is the branch, with the target the forecast stands for. -/
theorem recall_found {k : Fin 8}
    (hfind : searchRemember r g.predictRemember (g.ras.forecast r).1.correct = some k) :
    recalled g (g.ras.forecast r).1.offBy2
        (!(g.ras.forecast r).1.offBy2 && (g.ras.forecast r).1.offBy3)
        (placeByte k (g.ras.forecast r).1.correct) =
      (r, { g with ras := (g.ras.forecast r).2 }.updateRemember r (some k)) := by
  obtain ⟨hcode, htaken, haddress, -⟩ := searchRemember_some hfind
  have hplace := place_placeByte k (g.ras.forecast r).1.correct
  by_cases hreturn : r.code = 0x70
  · have hplaced : (g.predictRemember (place (placeByte k (g.ras.forecast r).1.correct))).code =
        0x70 := by rw [hplace, hcode, hreturn]
    rcases forecast_return g.ras hreturn with ⟨hcorrect, hras, hpatch⟩ | hwrong
    · rw [recall_predicted hplaced ((le_placeByte k _).mpr hcorrect), hplace, hras, patch_eq,
        hpatch, retarget hcode htaken haddress rfl]
    · -- the target is the one of the table
      rw [hwrong] at hfind hplaced hplace ⊢
      rw [recall_flushed hplaced (mt (le_placeByte k false).mp (by simp)), hplace,
        searchRemember_exact hfind]
  · rw [forecast_plain _ hreturn] at hfind hplace ⊢
    have hplaced : (g.predictRemember (place (placeByte k false))).code ≠ 0x70 := by
      rw [hplace, hcode]
      exact hreturn
    rw [recall_plain hplaced, hplace, searchRemember_exact hfind]

/-- What the compressor writes for a branch, the decompressor takes for it, and both are in the same
    state then. -/
theorem decode_encode {r : Record} (hr : r.Valid) (g : Globals) (l : List (BitVec 8)) :
    g.decode ((g.encode r.remember).1 ++ l) =
      some (r.remember, (g.encode r.remember).2, l) := by
  have hlow : ¬ r.code < 16 := BitVec.not_lt.mpr hr.1
  rw [Globals.encode]
  cases hfind : searchRemember r.remember g.predictRemember
      (g.ras.forecast r.remember).1.correct with
  | none =>
    simp only [hfind]
    rw [decode_bytes hlow hr.high_bit]
    by_cases hreturn : r.remember.code = 0x70
    · rw [if_pos hreturn, missed_eq _ hreturn]
      rfl
    · rw [if_neg hreturn, forecast_plain _ hreturn]
      rfl
  | some k =>
    simp only [hfind]
    rw [Globals.decode, splitPrefix_bytes]
    simp only [Option.map_some, List.headD_cons, if_pos (placeByte_lt k _), recall_found hfind,
      List.tail_cons]

/-! ### The run of the compressor -/

/-- What is written for a list of records. -/
def writeRecords (g : Globals) : List Record → List (Record × List (BitVec 8))
  | [] => []
  | r :: rs =>
    let (out, g) := g.encode r.remember
    (r, r.countBytes ++ out) :: writeRecords (g.after r.remember) rs

theorem writeRecords_fst (g : Globals) (rs : List Record) :
    (writeRecords g rs).map (·.1) = rs := by
  induction rs generalizing g with
  | nil => rfl
  | cons r rs ih => simp [writeRecords, ih]

variable {l : List (BitVec 8)}

theorem encodeRecord_next {a : Record × List (BitVec 8)} {s : Globals × List (BitVec 8)}
    (h : encodeRecord (g, l) = .next a s) :
    l ≠ [] ∧ (Record.read l).Valid ∧
      a = (Record.read l, (Record.read l).countBytes ++ (g.encode (Record.read l).remember).1) ∧
      s = ((g.encode (Record.read l).remember).2.after (Record.read l).remember,
        l.drop (Record.read l).bytes.length) := by
  rw [encodeRecord] at h
  split at h
  · cases h
  · rename_i hl
    simp only at h
    split at h
    · rename_i hr
      cases h
      exact ⟨hl, hr, rfl, rfl⟩
    · cases h

theorem encodeRecord_of (hl : l ≠ []) (hr : (Record.read l).Valid) :
    encodeRecord (g, l) =
      .next (Record.read l, (Record.read l).countBytes ++ (g.encode (Record.read l).remember).1)
        ((g.encode (Record.read l).remember).2.after (Record.read l).remember,
          l.drop (Record.read l).bytes.length) := by
  rw [encodeRecord, if_neg hl]
  exact if_pos hr

theorem encodeRecord_ended : encodeRecord (g, l) = .ended ↔ l = [] := by
  rw [encodeRecord]
  split
  · simpa using ‹_›
  · rename_i hl
    simp only [hl, iff_false]
    split <;> simp

/-- A file of records, the last of which may break off, is compressed to what is written for
    them. -/
theorem yields_writeRecords {rs : List Record} {k : ℕ} (hk : k ≤ 8) (hrs : ∀ r ∈ rs, r.Valid)
    (h : l ++ List.replicate k 0 = rs.flatMap Record.bytes) :
    Yields encodeRecord (g, l) (writeRecords g rs) := by
  induction rs generalizing g l k with
  | nil =>
    have hl : l = [] := (List.append_eq_nil_iff.mp h).1
    exact .ended (encodeRecord_ended.mpr hl)
  | cons r rs ih =>
    rw [List.flatMap_cons] at h
    have hlong := r.le_length_bytes
    have hread : Record.read l = r := by
      rw [← Record.read_zeros l k, h, Record.read_append (hrs r List.mem_cons_self)]
    have hl : l ≠ [] := by
      rintro rfl
      have := congrArg List.length h
      simp at this
      omega
    have hnext := encodeRecord_of (g := g) hl (hread ▸ hrs r List.mem_cons_self)
    rw [hread] at hnext
    have hrest : l.drop r.bytes.length ++ List.replicate (k - (r.bytes.length - l.length)) 0 =
        rs.flatMap Record.bytes := by
      have := congrArg (List.drop r.bytes.length) h
      rwa [List.drop_append, List.drop_replicate, List.drop_left] at this
    exact .next hnext (ih (by omega) (fun x hx => hrs x (List.mem_cons_of_mem _ hx)) hrest)

/-- And no other file is compressed. -/
theorem writeRecords_of_yields {out : List (Record × List (BitVec 8))}
    (h : Yields encodeRecord (g, l) out) :
    ∃ rs k, k ≤ 8 ∧ (∀ r ∈ rs, r.Valid) ∧
      l ++ List.replicate k 0 = rs.flatMap Record.bytes ∧ out = writeRecords g rs := by
  generalize hs : (g, l) = s at h
  induction h generalizing g l with
  | ended hf =>
    subst hs
    exact ⟨[], 0, by simp, by simp, by simpa using encodeRecord_ended.mp hf, rfl⟩
  | next hf _ ih =>
    subst hs
    obtain ⟨hl, hr, rfl, rfl⟩ := encodeRecord_next hf
    obtain ⟨rs, k, hk, hrs, hrest, rfl⟩ := ih rfl
    have hsplit := Record.read_split l
    by_cases hlen : (Record.read l).bytes.length ≤ l.length
    · rw [Nat.sub_eq_zero_of_le hlen, List.replicate_zero, List.append_nil] at hsplit
      refine ⟨Record.read l :: rs, k, hk, by simpa using ⟨hr, hrs⟩, ?_, rfl⟩
      rw [List.flatMap_cons, ← hrest, ← List.append_assoc, ← hsplit]
    · -- the file breaks off in this record, which is the last one
      have hdrop : l.drop (Record.read l).bytes.length = [] :=
        List.drop_eq_nil_of_le (Nat.le_of_not_le hlen)
      have hnil : rs = [] := by
        cases rs with
        | nil => rfl
        | cons r rs =>
          have hlong := r.le_length_bytes
          have hlength := congrArg List.length hrest
          simp [hdrop] at hlength
          omega
      subst hnil
      rw [hdrop, List.append_nil] at hsplit
      exact ⟨[Record.read l], _, hr.missing_le, by simpa using hr, by simpa using hsplit, rfl⟩

/-! ### The run of the decompressor -/

/-- A branch costs a byte at least and nine at most. -/
theorem encode_length (g : Globals) (r : Remember) :
    1 ≤ (g.encode r).1.length ∧ (g.encode r).1.length ≤ 9 := by
  rw [Globals.encode]
  cases hfind : searchRemember r g.predictRemember (g.ras.forecast r).1.correct with
  | none => simp [hfind, Remember.bytes]
  | some k =>
    simp only [hfind, Forecast.bytes]
    split
    · simp
    · split <;> simp

theorem encode_ne_nil (g : Globals) (r : Remember) : (g.encode r).1 ≠ [] :=
  List.length_pos_iff.mp (encode_length g r).1

/-- No branch starts like an instruction count. -/
theorem headD_of_decode {x : Remember × Globals × List (BitVec 8)} (h : g.decode l = some x) :
    l.headD 0 ≠ 0x87 := by
  intro hl
  have hhigh : (0x87 : BitVec 8) &&& 0x80 ≠ 0 := by decide
  have h82 : (0x87 : BitVec 8) ≠ 0x82 := by decide
  have h83 : (0x87 : BitVec 8) ≠ 0x83 := by decide
  rw [Globals.decode, splitPrefix, hl, if_pos hhigh, if_neg h82, if_neg h83] at h
  cases h

theorem decodeRecord_ended {pass : Bool} : decodeRecord pass (g, l) = .ended ↔ l = [] := by
  rw [decodeRecord]
  by_cases hl : l = []
  · simp [hl]
  · rw [if_neg hl]
    refine iff_of_false ?_ hl
    split
    · split
      · simp
      · split <;> simp

/-- What was written for a record is read as the record. -/
theorem decodeRecord_written {r : Record} (hr : r.Valid) (g : Globals) (l : List (BitVec 8)) :
    decodeRecord true (g, r.countBytes ++ (g.encode r.remember).1 ++ l) =
      .next r ((g.encode r.remember).2.after r.remember, l) := by
  have hdecode := decode_encode hr g l
  have hne : r.countBytes ++ (g.encode r.remember).1 ++ l ≠ [] := by
    simp [encode_ne_nil]
  rw [decodeRecord, if_neg hne]
  simp only [if_true, List.append_assoc, Record.splitCounts_append r (headD_of_decode hdecode),
    hdecode]
  exact if_pos hr

theorem map_eq_of_forall₂ {out : List (Record × List (BitVec 8))} {rs : List Record}
    (h : List.Forall₂ (fun a r => a.1 = r) out rs) : out.map (·.1) = rs := by
  rw [← List.forall₂_eq_eq_eq, List.forall₂_map_left_iff]
  exact h

/-- The run of the compressor is read back by the decompressor. -/
theorem decode_of_encode {out : List (Record × List (BitVec 8))}
    (h : Yields encodeRecord (g, l) out) :
    Yields (decodeRecord true) (g, out.flatMap (·.2)) (out.map (·.1)) := by
  have hended : ∀ s d : Globals × List (BitVec 8), s.1 = d.1 → encodeRecord s = .ended →
      d.2 = [] → decodeRecord true d = .ended :=
    fun s d _ _ hd => decodeRecord_ended.mpr hd
  have hnext : ∀ s d a s' rest, s.1 = d.1 → encodeRecord s = .next a s' → d.2 = a.2 ++ rest →
      ∃ r d', decodeRecord true d = .next r d' ∧ d'.2 = rest ∧ s'.1 = d'.1 ∧ a.1 = r := by
    rintro ⟨g, l⟩ ⟨g', l'⟩ a s' rest rfl hs rfl
    obtain ⟨-, hr, rfl, rfl⟩ := encodeRecord_next hs
    exact ⟨_, _, decodeRecord_written hr g rest, rfl, rfl, rfl⟩
  obtain ⟨m, hm, hall⟩ :=
    h.decode (d := (g, out.flatMap (·.2))) (·.2) (·.2) hended hnext rfl rfl
  rwa [map_eq_of_forall₂ hall]

end TraceFile
