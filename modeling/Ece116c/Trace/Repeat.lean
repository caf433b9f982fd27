import Mathlib.Data.Fintype.Basic
import Ece116c.Lib.Lru
import Ece116c.Trace.Format

/-! What the table of the compressor remembers: a branch that comes again in its context, with no
    more than seven others between, costs one byte.

    The places are looked at through a `key`, the branch itself or what of it the search goes by. -/

namespace TraceFile

open Predict Reading

/-! ### The table as places with stamps -/

/-- The globals after a branch. -/
def Globals.next (g : Globals) (r : Remember) : Globals := (g.encode r).2.after r

/-- What the place that `update_remember` stamps holds then, the branch itself or what was found for
    it. -/
def Globals.touched (g : Globals) (r : Remember) : Remember :=
  (searchRemember r g.predictRemember (g.ras.forecast r).1.correct).elim r
    fun k => (g.predictRemember k).toRemember

/-- The set at `u`. -/
def lines (key : Remember → Remember) (g : Globals) (u : BitVec 32) (k : Fin 8) :
    Lru.Line Remember ℕ :=
  ⟨key (g.rtab u k).toRemember, (g.rtab u k).lruTime.toNat⟩

/-- What is not found has a key that no place has. -/
def Tells (key : Remember → Remember) (g : Globals) (r : Remember) : Prop :=
  searchRemember r g.predictRemember (g.ras.forecast r).1.correct = none →
    ∀ j, key (g.predictRemember j).toRemember ≠ key r

variable {key : Remember → Remember} {g : Globals} {r : Remember} {u : BitVec 32}

theorem lines_stamp (k : Fin 8) : lines key (g.stamp k r) g.row =
    Function.update (lines key g g.row) k ⟨key r, g.now.toNat⟩ := by
  funext j
  rcases eq_or_ne j k with rfl | hj
  · simp [lines, Globals.stamp]
  · simp [lines, Globals.stamp, Function.update_of_ne hj, Globals.predictRemember]

theorem lines_stamp_of_ne (k : Fin 8) (hu : u ≠ g.row) :
    lines key (g.stamp k r) u = lines key g u := by
  funext j
  simp [lines, Globals.stamp, Function.update_of_ne hu]

/-- The item thrown out is an oldest one. -/
theorem lruItem_le (t : Fin 8 → Entry) (j : Fin 8) :
    (t (Globals.lruItem t)).lruTime.toNat ≤ (t j).lruTime.toNat := by
  have hall : ∀ j : Fin 8, j ∈ [0, 1, 2, 3, 4, 5, 6, 7] := by decide
  exact Lru.foldl_le (fun k => (t k).lruTime.toNat) _ _ j (hall j)

/-! ### One branch -/

theorem next_eq (g : Globals) (r : Remember) : g.next r =
    ({ g with ras := (g.ras.forecast r).2 }.updateRemember r
      (searchRemember r g.predictRemember (g.ras.forecast r).1.correct)).after r := rfl

theorem touched_code (g : Globals) (r : Remember) : (g.touched r).code = r.code := by
  rw [Globals.touched]
  cases hfind : searchRemember r g.predictRemember (g.ras.forecast r).1.correct with
  | none => rfl
  | some k => exact (searchRemember_some hfind).1

/-- A branch touches a place of its set. -/
theorem touch_next (h : Tells key g r) :
    Lru.Touch (lines key g g.row) g.now.toNat (key (g.touched r))
      (lines key (g.next r) g.row) := by
  rw [Globals.touched, next_eq]
  cases hfind : searchRemember r g.predictRemember (g.ras.forecast r).1.correct with
  | none =>
    have hlines : lines key (g.stamp (Globals.lruItem g.predictRemember) r) g.row = _ :=
      lines_stamp _
    exact hlines ▸ Lru.Touch.miss (h hfind) (lruItem_le _)
  | some k =>
    have hlines : lines key (g.stamp k (g.predictRemember k).toRemember) g.row = _ :=
      lines_stamp k
    exact hlines ▸ Lru.Touch.hit rfl

theorem lines_next_of_ne (r : Remember) (hu : u ≠ g.row) :
    lines key (g.next r) u = lines key g u := by
  rw [next_eq]
  cases searchRemember r g.predictRemember (g.ras.forecast r).1.correct with
  | none => exact lines_stamp_of_ne (g := { g with ras := (g.ras.forecast r).2 }) _ hu
  | some k => exact lines_stamp_of_ne (g := { g with ras := (g.ras.forecast r).2 }) k hu

theorem now_next (g : Globals) (r : Remember) : (g.next r).now = g.now + 1 := by
  rw [next_eq]
  cases searchRemember r g.predictRemember (g.ras.forecast r).1.correct <;> rfl

theorem row_next (g : Globals) (r : Remember) : (g.next r).row = r.target &&& 0xFFFF := by
  rw [next_eq]
  cases searchRemember r g.predictRemember (g.ras.forecast r).1.correct <;> rfl

/-! ### Runs -/

/-- The globals after the records of a file. -/
def Globals.run (g : Globals) (rs : List Record) : Globals :=
  rs.foldl (fun g r => g.next r.remember) g

theorem Globals.run_cons (g : Globals) (r : Record) (rs : List Record) :
    g.run (r :: rs) = (g.next r.remember).run rs := rfl

theorem Globals.run_append (g : Globals) (rs rs' : List Record) :
    g.run (rs ++ rs') = (g.run rs).run rs' := List.foldl_append

theorem writeRecords_append (g : Globals) (rs rs' : List Record) :
    writeRecords g (rs ++ rs') = writeRecords g rs ++ writeRecords (g.run rs) rs' := by
  induction rs generalizing g with
  | nil => rfl
  | cons r rs ih => simp [writeRecords, ih, Globals.run_cons, Globals.next]

/-- The set the branch behind `rs` is looked up in: the last target, modulo 2^16. -/
def row (rs : List Record) : BitVec 32 := (rs.getLast?.elim 0 fun r => r.target) &&& 0xFFFF

theorem row_run (rs : List Record) : (Globals.init.run rs).row = row rs := by
  cases rs using List.reverseRecOn with
  | nil => rfl
  | append_singleton rs r =>
    rw [Globals.run_append, row, List.getLast?_concat]
    exact row_next _ _

/-- Of `n` branches: the time is their number, every set is in order, and only at the start a
    place may have the time that comes next. -/
structure Aged (key : Remember → Remember) (n : ℕ) (g : Globals) : Prop where
  now_eq : g.now.toNat = n
  distinct : ∀ u, Lru.Distinct (key Remember.init) (lines key g u)
  before : ∀ u, Lru.Before (max n 1) (lines key g u)

theorem aged_init : Aged key 0 Globals.init := by
  refine ⟨rfl, fun u i j _ h => absurd rfl h, fun u j => ?_⟩
  simp [lines, Globals.init]

section Runs

variable (hkey : ∀ r, (key r).code = r.code)
include hkey

theorem key_ne {r : Record} (hr : r.Valid) (g : Globals) :
    key (g.touched r.remember) ≠ key Remember.init := by
  intro h
  have hcode := congrArg Remember.code h
  rw [hkey, hkey, touched_code] at hcode
  exact hr.code_ne_zero hcode

/-- One branch ages the table by one, until the time wraps around. -/
theorem Aged.next {n : ℕ} {r : Record} (h : Aged key n g) (hr : r.Valid)
    (hr' : Tells key g r.remember) (hn : n + 1 < 2 ^ 32) :
    Aged key (n + 1) (g.next r.remember) := by
  have htouch := touch_next hr'
  rw [h.now_eq] at htouch
  refine ⟨?_, fun u => ?_, fun u => ?_⟩
  · rw [now_next, BitVec.toNat_add, h.now_eq]
    exact Nat.mod_eq_of_lt hn
  · by_cases hu : u = g.row
    · subst hu
      exact htouch.distinct (h.distinct _) (key_ne hkey hr g)
    · rw [lines_next_of_ne _ hu]
      exact h.distinct u
  · by_cases hu : u = g.row
    · subst hu
      exact htouch.before ((h.before _).mono (by omega)) (by omega)
    · rw [lines_next_of_ne _ hu]
      exact (h.before u).mono (by omega)

theorem Aged.run {n : ℕ} {rs : List Record} (h : Aged key n g) (hrs : ∀ r ∈ rs, r.Valid)
    (htells : ∀ m r m', rs = m ++ r :: m' → Tells key (g.run m) r.remember)
    (hn : n + rs.length < 2 ^ 32) : Aged key (n + rs.length) (g.run rs) := by
  induction rs generalizing g n with
  | nil => exact h
  | cons r rs ih =>
    rw [List.length_cons] at hn
    rw [List.forall_mem_cons] at hrs
    have hrest : ∀ m r' m', rs = m ++ r' :: m' →
        Tells key ((g.next r.remember).run m) r'.remember := by
      rintro m r' m' rfl
      exact htells (r :: m) r' m' rfl
    have hnext := ih (h.next hkey hrs.1 (htells [] r rs rfl) (by omega)) hrs.2 hrest (by omega)
    rwa [Nat.add_assoc, Nat.add_comm 1] at hnext

/-- A key stays in its set while those touched there are among eight, itself one of them. -/
theorem recent_run {n s : ℕ} {x : Remember} {W : Finset Remember} {mid : List Record}
    (h : Aged key n g) (hpos : 0 < n) (hn : n + mid.length < 2 ^ 32)
    (hvalid : ∀ r ∈ mid, r.Valid) (hW : key Remember.init ∉ W) (hcard : W.card ≤ 8)
    (htells : ∀ m r m', mid = m ++ r :: m' → Tells key (g.run m) r.remember)
    (hmid : ∀ m r m', mid = m ++ r :: m' → (g.run m).row = u →
      key ((g.run m).touched r.remember) ∈ W)
    (hx : Lru.Recent x s W (lines key g u)) :
    ∃ s', Lru.Recent x s' W (lines key (g.run mid) u) := by
  induction mid generalizing g n s with
  | nil => exact ⟨s, hx⟩
  | cons r mid ih =>
    rw [List.length_cons] at hn
    rw [List.forall_mem_cons] at hvalid
    have htells' : ∀ m r' m', mid = m ++ r' :: m' →
        Tells key ((g.next r.remember).run m) r'.remember := by
      rintro m r' m' rfl
      exact htells (r :: m) r' m' rfl
    have hmid' : ∀ m r' m', mid = m ++ r' :: m' → ((g.next r.remember).run m).row = u →
        key (((g.next r.remember).run m).touched r'.remember) ∈ W := by
      rintro m r' m' rfl
      exact hmid (r :: m) r' m' rfl
    have htell : Tells key g r.remember := htells [] r mid rfl
    have hstep : ∃ s', Lru.Recent x s' W (lines key (g.next r.remember) u) := by
      by_cases hu : u = g.row
      · subst hu
        have hmem : key (g.touched r.remember) ∈ W := hmid [] r mid rfl rfl
        have hbefore : Lru.Before g.now.toNat (lines key g g.row) :=
          (h.before _).mono (by rw [h.now_eq]; omega)
        obtain ⟨s', hs'⟩ := hx.touch (h.distinct _) hbefore (touch_next htell) hW
          (by rw [Finset.insert_eq_of_mem hmem]; simpa using hcard)
        rw [Finset.insert_eq_of_mem hmem] at hs'
        exact ⟨s', hs'⟩
      · rw [lines_next_of_ne _ hu]
        exact ⟨s, hx⟩
    obtain ⟨s', hs'⟩ := hstep
    exact ih (h.next hkey hvalid.1 htell (by omega)) (by omega) (by omega) hvalid.2 htells' hmid'
      hs'

/-- So behind seven other keys, or fewer, the place of `x` is still there. -/
theorem recent_again {pre mid : List Record} {x : Record} {W : Finset Remember}
    (hvalid : ∀ r ∈ pre ++ x :: mid, r.Valid) (hpre : pre ≠ [])
    (hlength : (pre ++ x :: mid).length < 2 ^ 32)
    (htells : ∀ m r m', pre ++ x :: mid = m ++ r :: m' → Tells key (Globals.init.run m) r.remember)
    (hx : key ((Globals.init.run pre).touched x.remember) = key x.remember) (hcard : W.card ≤ 7)
    (hmid : ∀ m r m', mid = m ++ r :: m' → row (pre ++ x :: m) = row pre →
      key ((Globals.init.run (pre ++ x :: m)).touched r.remember) = key x.remember ∨
        key ((Globals.init.run (pre ++ x :: m)).touched r.remember) ∈ W) :
    ∃ s W', Lru.Recent (key x.remember) s W'
      (lines key (Globals.init.run (pre ++ x :: mid)) (row pre)) := by
  obtain ⟨hpreValid, hrest⟩ := List.forall_mem_append.mp hvalid
  obtain ⟨hxValid, hmidValid⟩ := List.forall_mem_cons.mp hrest
  rw [List.length_append, List.length_cons] at hlength
  have hpos := List.length_pos_iff.mpr hpre
  -- the set when `x` is looked up, and right behind it
  have haged := aged_init.run hkey hpreValid
    (fun m r m' hm => htells m r (m' ++ x :: mid) (by simp [hm])) (by omega)
  rw [Nat.zero_add] at haged
  have htell : Tells key (Globals.init.run pre) x.remember := htells pre x mid rfl
  have htouch := touch_next htell
  rw [hx, row_run, haged.now_eq] at htouch
  have hstart := Lru.Recent.start ((haged.before (row pre)).mono (by omega)) htouch
  -- the branches in between
  have hunused : key Remember.init ∉ insert (key x.remember) (W.erase (key Remember.init)) := by
    have hne := key_ne hkey hxValid (Globals.init.run pre)
    rw [hx] at hne
    simpa using hne.symm
  have hcard' : (insert (key x.remember) (W.erase (key Remember.init))).card ≤ 8 :=
    (Finset.card_insert_le _ _).trans
      (Nat.succ_le_succ ((Finset.card_le_card (Finset.erase_subset _ _)).trans hcard))
  have hrun : ∀ m, ((Globals.init.run pre).next x.remember).run m =
      Globals.init.run (pre ++ x :: m) := fun m => by
    rw [Globals.run_append, Globals.run_cons]
  have hbetween : ∀ m r m', mid = m ++ r :: m' →
      (((Globals.init.run pre).next x.remember).run m).row = row pre →
        key ((((Globals.init.run pre).next x.remember).run m).touched r.remember) ∈
          insert (key x.remember) (W.erase (key Remember.init)) := by
    rintro m r m' rfl hm
    rw [hrun] at hm ⊢
    rw [row_run] at hm
    have hne := key_ne hkey (hmidValid r (by simp)) (Globals.init.run (pre ++ x :: m))
    simpa [hne] using hmid m r m' rfl hm
  obtain ⟨s, hs⟩ := recent_run hkey (haged.next hkey hxValid htell (by omega)) (by omega) (by omega)
    hmidValid hunused hcard'
    (fun m r m' hm => hrun m ▸ htells (pre ++ x :: m) r m' (by simp [hm])) hbetween
    (hstart.mono (by simp))
  rw [hrun] at hs
  exact ⟨s, _, hs⟩

end Runs

/-! ### Branches that are told apart in full -/

/-- A branch that was not found is at no place. -/
theorem searchRemember_none {t : Fin 8 → Entry} {ignore : Bool}
    (h : searchRemember r t ignore = none) (j : Fin 8) : (t j).toRemember ≠ r := by
  rintro rfl
  have hequal := List.find?_eq_none.mp h j (List.mem_finRange j)
  simp [Remember.equal] at hequal

theorem tells_id (g : Globals) (r : Remember) : Tells id g r := searchRemember_none

theorem touched_plain (hcode : r.code ≠ 0x70) : g.touched r = r := by
  rw [Globals.touched, forecast_plain _ hcode]
  cases hfind : searchRemember r g.predictRemember false with
  | none => rfl
  | some k => exact searchRemember_exact hfind

/-- What is at a place is found, and costs a byte. -/
theorem encode_held {x : Remember} {s : ℕ} {W : Finset Remember} (hcode : x.code ≠ 0x70)
    (hx : Lru.Recent x s W (lines id g g.row)) : ∃ k : BitVec 8, k < 8 ∧ (g.encode x).1 = [k] := by
  obtain ⟨p, hp⟩ := hx.held
  have hplace : (g.predictRemember p).toRemember = x := congrArg Lru.Line.key hp
  cases hfind : searchRemember x g.predictRemember false with
  | none => exact absurd hplace (searchRemember_none hfind p)
  | some k =>
    refine ⟨placeByte k false, BitVec.not_le.mp (mt (le_placeByte k false).mp (by simp)), ?_⟩
    rw [Globals.encode, forecast_plain _ hcode]
    simp only [hfind]
    rfl

variable {bufSize : ℕ+}

theorem compress_records {rs : List Record} (hrs : ∀ r ∈ rs, r.Valid) :
    compress bufSize (rs.flatMap Record.bytes) =
      some ((writeRecords Globals.init rs).flatMap (·.2)) :=
  compress_iff.mpr ⟨_, yields_whole hrs _, rfl⟩

/-- What a record adds to a file that is compressed. -/
theorem compress_concat {rs : List Record} {y : Record} (hrs : ∀ r ∈ rs, r.Valid) (hy : y.Valid) :
    compress bufSize (rs.flatMap Record.bytes ++ y.bytes) =
      (compress bufSize (rs.flatMap Record.bytes)).map
        (· ++ (y.countBytes ++ ((Globals.init.run rs).encode y.remember).1)) := by
  have hall : ∀ r ∈ rs ++ [y], r.Valid := by
    intro r hr
    rcases List.mem_append.mp hr with hr | hr
    · exact hrs r hr
    · rw [List.mem_singleton.mp hr]
      exact hy
  have hbytes : rs.flatMap Record.bytes ++ y.bytes = (rs ++ [y]).flatMap Record.bytes := by simp
  rw [hbytes, compress_records hall, compress_records hrs, writeRecords_append]
  simp [writeRecords]

/-- A branch, not a return, that comes again behind the same target, costs one byte when the
    branches looked up in between behind such a target are no returns either and at most seven
    others. The very first branch of a file is left out: it is stamped with the time 0, like the
    places never used. -/
theorem compress_again {pre mid : List Record} {x y : Record} {W : Finset Remember}
    (hvalid : ∀ r ∈ pre ++ x :: mid, r.Valid) (hpre : pre ≠ [])
    (hlength : (pre ++ x :: mid).length < 2 ^ 32) (hcode : x.code ≠ 0x70)
    (hy : y.remember = x.remember) (hrow : row (pre ++ x :: mid) = row pre) (hcard : W.card ≤ 7)
    (hmid : ∀ m r m', mid = m ++ r :: m' → row (pre ++ x :: m) = row pre →
      r.code ≠ 0x70 ∧ (r.remember = x.remember ∨ r.remember ∈ W)) :
    ∃ k : BitVec 8, k < 8 ∧
      compress bufSize ((pre ++ x :: mid).flatMap Record.bytes ++ y.bytes) =
        (compress bufSize ((pre ++ x :: mid).flatMap Record.bytes)).map
          (· ++ (y.countBytes ++ [k])) := by
  have hplain : ∀ (r : Record) (g : Globals), r.code ≠ 0x70 → g.touched r.remember = r.remember :=
    fun r g h => touched_plain h
  obtain ⟨s, W', hs⟩ := @recent_again id (fun _ => rfl) _ _ _ _ hvalid hpre hlength
    (fun _ _ _ _ => tells_id _ _) (hplain x _ hcode) hcard
    (fun m r m' hm hrow' => by
      obtain ⟨hreturn, hmem⟩ := hmid m r m' hm hrow'
      simpa [hplain r _ hreturn] using hmem)
  rw [← hrow, ← row_run] at hs
  obtain ⟨k, hk, hencode⟩ := encode_held hcode hs
  rw [id_eq] at hencode
  have hyValid : y.Valid := by
    have hcodes : y.code = x.code := congrArg Remember.code hy
    rw [Record.Valid, hcodes]
    exact hvalid x (by simp)
  exact ⟨k, hk, by rw [compress_concat hvalid hyValid, hy, hencode]⟩

theorem compress_again_loop : ∃ k : BitVec 8, k < 8 ∧
    compress 4 (([Record.jump 0x100 0x200] ++ Record.jump 0x210 0x220 ::
        [Record.jump 0x230 0x200, Record.jump 0x240 0x200]).flatMap Record.bytes ++
          { Record.jump 0x210 0x220 with counts := some (3, 0) }.bytes) =
      (compress 4 (([Record.jump 0x100 0x200] ++ Record.jump 0x210 0x220 ::
        [Record.jump 0x230 0x200, Record.jump 0x240 0x200]).flatMap Record.bytes)).map
          (· ++ ({ Record.jump 0x210 0x220 with counts := some (3, 0) }.countBytes ++ [k])) := by
  refine compress_again (W := {(Record.jump 0x240 0x200).remember}) (by decide) (by simp)
    (by simp) (by decide) rfl (by decide) (by simp) ?_
  rintro (_ | ⟨a, _ | ⟨b, m⟩⟩) r m' h hrow
  · cases h
    exact absurd hrow (by decide)
  · cases h
    exact ⟨by decide, .inr (by simp)⟩
  · cases m <;> cases h

end TraceFile
