import Ece116c.Lib.CallStack
import Ece116c.Trace.Repeat

/-! The return address stack as a list, and returns that it forecasts: all of them, where calls and
    returns are nested at most a hundred deep. -/

namespace TraceFile

open Predict Reading CallStack

/-! ### The stack as a list -/

namespace Ras

/-- The cell `j` of the array. -/
def cell (s : Ras) (j : ℕ) : BitVec 32 := if h : j < 100 then s.ras ⟨j, h⟩ else 0

/-- The addresses on the stack, the last pushed first. -/
def toList (s : Ras) : List (BitVec 32) := (List.range' s.top (100 - s.top)).map s.cell

variable (s : Ras) (a : BitVec 32)

theorem length_toList : s.toList.length = 100 - s.top := by simp [toList]

theorem toList_full (h : ¬ s.top < 100) : s.toList = [] := by
  simp [toList, Nat.sub_eq_zero_of_le (Nat.le_of_not_lt h)]

theorem toList_cons (h : s.top < 100) :
    s.toList = s.cell s.top :: (List.range' (s.top + 1) (100 - (s.top + 1))).map s.cell := by
  have hsize : 100 - s.top = 100 - (s.top + 1) + 1 := by omega
  rw [toList, hsize, List.range'_succ, List.map_cons]

theorem toList_push :
    (s.push a).toList = if s.toList.length < 100 then a :: s.toList else s.toList := by
  have htop := s.top_le
  rw [length_toList]
  by_cases h : s.top = 0
  · rw [if_neg (by omega), push, dif_pos h]
  · have hnext : s.top - 1 + 1 = s.top := by omega
    have hlt : s.top - 1 < 100 := by omega
    rw [if_pos (by omega), push, dif_neg h, toList_cons _ hlt, hnext, toList]
    refine congrArg₂ List.cons (by simp [cell, hlt]) (List.map_congr_left fun j hj => ?_)
    -- the cells above are the same as before
    have hj' : (s.top - 1) ≠ j := by
      have := (List.mem_range'_1.mp hj).1
      omega
    simp only [cell]
    split
    · rw [Function.update_of_ne (by simpa [Fin.ext_iff] using hj'.symm)]
    · rfl

theorem pop_fst : s.pop.1 = s.toList.headD 0 := by
  by_cases h : s.top < 100
  · rw [pop, dif_pos h, toList_cons s h, List.headD_cons, cell, dif_pos h]
  · rw [pop, dif_neg h, toList_full s h]
    rfl

theorem toList_pop : s.pop.2.toList = s.toList.tail := by
  by_cases h : s.top < 100
  · rw [pop, dif_pos h, toList_cons s h]
    rfl
  · rw [pop, dif_neg h, toList_full s h]
    rfl

end Ras

/-! ### Branches as calls and returns -/

/-- What a branch does to the stack. -/
def Record.event (r : Record) : Event (BitVec 32) (BitVec 32) :=
  if r.code = 0x70 then .ret r.target
  else if (r.code >>> 4).toNat = 5 then .call (r.address + 5)
  else if (r.code >>> 4).toNat = 6 then .call (r.address + 2)
  else .other

/-- The target of a return is the address popped, or close enough to be patched. -/
def GoesBack (a target : BitVec 32) : Prop := target = a ∨ target = a + 2 ∨ target = a - 3

theorem forecast_correct {s : Ras} {r : Record} (hcode : r.code = 0x70)
    (h : GoesBack (s.toList.headD 0) r.target) :
    (s.forecast r.remember).1.correct = true ∧ (s.forecast r.remember).2 = s.pop.2 := by
  have hreturn : r.remember.code = 0x70 := hcode
  rw [GoesBack, ← s.pop_fst] at h
  simp only [Ras.forecast, if_pos hreturn]
  split
  · exact ⟨rfl, rfl⟩
  · rename_i hpop
    split
    · exact ⟨rfl, rfl⟩
    · rename_i hadd
      split
      · exact ⟨rfl, rfl⟩
      · rename_i hsub
        rcases h with h | h | h
        · exact absurd h.symm hpop
        · exact absurd h hadd
        · exact absurd h hsub

theorem ras_next (g : Globals) (r : Remember) :
    (g.next r).ras = (g.ras.forecast r).2.after r := by
  rw [next_eq]
  cases searchRemember r g.predictRemember (g.ras.forecast r).1.correct <;> rfl

theorem Found.goesBack {s : List (BitVec 32)} {r : Record} (hcode : r.code = 0x70)
    (h : Found GoesBack s r.event) : GoesBack (s.headD 0) r.target := by
  rw [Record.event, if_pos hcode] at h
  obtain ⟨a, ha, hback⟩ := h
  cases s with
  | nil => cases ha
  | cons b s =>
    cases ha
    exact hback

/-- The stack follows while the returns find their addresses. -/
theorem toList_next {g : Globals} {r : Record} (h : Found GoesBack g.ras.toList r.event) :
    (g.next r.remember).ras.toList = CallStack.step 100 g.ras.toList r.event := by
  rw [ras_next]
  by_cases hcode : r.code = 0x70
  · have hafter : ∀ s : Ras, s.after r.remember = s := by
      intro s
      have hseven : (r.remember.code >>> 4).toNat = 7 := by
        rw [show r.remember.code = 0x70 from hcode]
        rfl
      rw [Ras.after, hseven]
      rfl
    rw [hafter, (forecast_correct hcode (Found.goesBack hcode h)).2, Ras.toList_pop, Record.event,
      if_pos hcode]
    rfl
  · have hsame : r.remember.code = r.code := rfl
    rw [forecast_plain _ (show r.remember.code ≠ 0x70 from hcode), Record.event, if_neg hcode,
      Ras.after, hsame]
    by_cases h5 : (r.code >>> 4).toNat = 5
    · rw [if_pos h5, if_pos h5]
      exact g.ras.toList_push _
    · by_cases h6 : (r.code >>> 4).toNat = 6
      · rw [if_neg h5, if_neg h5, if_pos h6, if_pos h6]
        exact g.ras.toList_push _
      · rw [if_neg h5, if_neg h5, if_neg h6, if_neg h6]
        rfl

theorem toList_run {g : Globals} {rs : List Record}
    (h : Predicted GoesBack 100 g.ras.toList (rs.map Record.event)) :
    (g.run rs).ras.toList = CallStack.run 100 g.ras.toList (rs.map Record.event) := by
  induction rs generalizing g with
  | nil => rfl
  | cons r rs ih =>
    obtain ⟨hfound, hrest⟩ := h
    rw [← toList_next hfound] at hrest
    rw [Globals.run_cons, ih hrest, toList_next hfound]
    rfl

/-- Returns that find their addresses are forecast. -/
theorem forecast_of_predicted {rs m m' : List Record} {r : Record}
    (h : Predicted GoesBack 100 [] (rs.map Record.event)) (hrs : rs = m ++ r :: m')
    (hcode : r.code = 0x70) :
    ((Globals.init.run m).ras.forecast r.remember).1.correct = true := by
  have hempty : Globals.init.ras.toList = [] := rfl
  subst hrs
  rw [← hempty, List.map_append, predicted_append, List.map_cons] at h
  obtain ⟨hm, hfound, -⟩ := h
  rw [← toList_run hm] at hfound
  exact (forecast_correct hcode (Found.goesBack hcode hfound)).1

/-- All returns, which are the branches of code `0x70`, are forecast when calls and returns are
    nested, a hundred deep at most, and the stack is empty at the end. -/
theorem forecast_nested {rs : List Record} {d : ℕ} (h : Nested GoesBack d (rs.map Record.event))
    (hd : d ≤ 100) :
    (Globals.init.run rs).ras.toList = [] ∧
      ∀ m r m', rs = m ++ r :: m' → r.code = 0x70 →
        ((Globals.init.run m).ras.forecast r.remember).1.correct = true := by
  have hroom : ([] : List (BitVec 32)).length + d ≤ 100 := by simpa using hd
  have hpredicted := h.predicted hroom
  refine ⟨?_, fun m r m' => forecast_of_predicted hpredicted⟩
  exact (toList_run (g := Globals.init) hpredicted).trans (h.run_eq hroom)

theorem nested_twoCalls : Nested GoesBack 1 (twoCalls.map Record.event) := by
  have h : Nested GoesBack 1 (.call 0x8005 :: ([] ++ .ret 0x8005 ::
      .call 0x8105 :: ([] ++ .ret 0x8105 :: []))) :=
    .call .nil (.inl rfl) (.call .nil (.inl rfl) .nil)
  exact h

theorem forecast_nested_twoCalls :
    (Globals.init.run twoCalls).ras.toList = [] ∧
      ∀ m r m', twoCalls = m ++ r :: m' → r.code = 0x70 →
        ((Globals.init.run m).ras.forecast r.remember).1.correct = true :=
  forecast_nested nested_twoCalls (by simp)

/-! ### Branches that are told apart up to the targets of returns -/

/-- What the search goes by when returns are forecast. -/
def Remember.kind (r : Remember) : Remember := if r.code = 0x70 then { r with target := 0 } else r

theorem kind_code (r : Remember) : r.kind.code = r.code := by
  rw [Remember.kind]
  split <;> rfl

theorem kind_eq_iff {e r : Remember} : e.kind = r.kind ↔
    e.code = r.code ∧ e.taken = r.taken ∧ e.address = r.address ∧
      (r.code = 0x70 ∨ e.target = r.target) := by
  by_cases hr : r.code = 0x70
  · by_cases he : e.code = 0x70
    · simp only [Remember.kind, if_pos hr, if_pos he, Remember.mk.injEq]
      tauto
    · refine iff_of_false (fun h => he ?_) (fun h => he (h.1.trans hr))
      rw [← kind_code e, h, kind_code, hr]
  · by_cases he : e.code = 0x70
    · refine iff_of_false (fun h => hr ?_) (fun h => hr (h.1.symm.trans he))
      rw [← kind_code r, ← h, kind_code, he]
    · simp only [Remember.kind, if_neg hr, if_neg he, Remember.ext_iff]
      tauto

variable {g : Globals} {r : Remember}

theorem tells_kind (h : r.code = 0x70 → (g.ras.forecast r).1.correct = true) :
    Tells Remember.kind g r := by
  intro hfind j hj
  obtain ⟨hcode, htaken, haddress, htarget⟩ := kind_eq_iff.mp hj
  have hequal := List.find?_eq_none.mp hfind j (List.mem_finRange j)
  have hignore : (g.ras.forecast r).1.correct = true ∨ (g.predictRemember j).target = r.target :=
    htarget.imp_left h
  simp [Remember.equal, hcode, htaken, haddress] at hequal
  rcases hignore with hignore | hignore
  · simp [hignore] at hequal
  · exact hequal.2 hignore

theorem touched_kind (g : Globals) (r : Remember) : (g.touched r).kind = r.kind := by
  rw [Globals.touched]
  cases hfind : searchRemember r g.predictRemember (g.ras.forecast r).1.correct with
  | none => rfl
  | some k =>
    obtain ⟨hcode, htaken, haddress, htarget⟩ := searchRemember_some hfind
    refine kind_eq_iff.mpr ⟨hcode, htaken, haddress, ?_⟩
    by_cases hreturn : r.code = 0x70
    · exact .inl hreturn
    · rw [forecast_plain _ hreturn] at htarget
      exact .inr (htarget.resolve_left (by simp))

theorem encode_kind {s : ℕ} {W : Finset Remember}
    (h : r.code = 0x70 → (g.ras.forecast r).1.correct = true)
    (hr : Lru.Recent r.kind s W (lines Remember.kind g g.row)) : (g.encode r).1.length ≤ 2 := by
  obtain ⟨p, hp⟩ := hr.held
  have hplace : (g.predictRemember p).toRemember.kind = r.kind := congrArg Lru.Line.key hp
  rw [Globals.encode]
  cases hfind : searchRemember r g.predictRemember (g.ras.forecast r).1.correct with
  | none => exact absurd hplace (tells_kind h hfind p)
  | some k =>
    simp only [Forecast.bytes, hfind]
    split
    · simp
    · split <;> simp

/-- Where returns, the branches of code `0x70`, find their addresses, a branch that comes again
    behind the same target, a return perhaps to another place than before, costs two bytes at most
    when no more than seven others were looked up in between behind such a target. The very first
    branch of a file is left out here too. -/
theorem compress_again_predicted {bufSize : ℕ+} {pre mid : List Record} {x y : Record}
    {W : Finset Remember} (hvalid : ∀ r ∈ pre ++ x :: mid, r.Valid) (hpre : pre ≠ [])
    (hlength : (pre ++ x :: mid).length < 2 ^ 32) (hy : y.remember.kind = x.remember.kind)
    (hpredicted : Predicted GoesBack 100 [] ((pre ++ x :: mid ++ [y]).map Record.event))
    (hrow : row (pre ++ x :: mid) = row pre) (hcard : W.card ≤ 7)
    (hmid : ∀ m r m', mid = m ++ r :: m' → row (pre ++ x :: m) = row pre →
      r.remember.kind = x.remember.kind ∨ r.remember.kind ∈ W) :
    ∃ code, code.length ≤ 2 ∧
      compress bufSize ((pre ++ x :: mid).flatMap Record.bytes ++ y.bytes) =
        (compress bufSize ((pre ++ x :: mid).flatMap Record.bytes)).map
          (· ++ (y.countBytes ++ code)) := by
  have hyValid : y.Valid := by
    have hcodes : y.code = x.code := (kind_eq_iff.mp hy).1
    rw [Record.Valid, hcodes]
    exact hvalid x (by simp)
  have hcorrect : ∀ m r m', pre ++ x :: mid ++ [y] = m ++ r :: m' → r.code = 0x70 →
      ((Globals.init.run m).ras.forecast r.remember).1.correct = true :=
    fun m r m' => forecast_of_predicted hpredicted
  obtain ⟨s, W', hs⟩ := recent_again kind_code hvalid hpre hlength
    (fun m r m' hm => tells_kind (hcorrect m r (m' ++ [y]) (by simp [hm])))
    (touched_kind _ _) hcard
    (fun m r m' hm hrow' => by
      rw [touched_kind]
      exact hmid m r m' hm hrow')
  rw [← hrow, ← row_run, ← hy] at hs
  exact ⟨_, encode_kind (hcorrect (pre ++ x :: mid) y [] rfl) hs, compress_concat hvalid hyValid⟩

theorem compress_again_predicted_call : ∃ code : List (BitVec 8), code.length ≤ 2 ∧
    compress 4 (([Record.call 0x8000 0x9000] ++ Record.ret 0x9010 0x8005 ::
        [Record.call 0x8100 0x9000]).flatMap Record.bytes ++ (Record.ret 0x9010 0x8105).bytes) =
      (compress 4 (([Record.call 0x8000 0x9000] ++ Record.ret 0x9010 0x8005 ::
        [Record.call 0x8100 0x9000]).flatMap Record.bytes)).map
          (· ++ ((Record.ret 0x9010 0x8105).countBytes ++ code)) := by
  have hpredicted := nested_twoCalls.predicted (s := []) (n := 100) (by simp)
  refine compress_again_predicted (W := ∅) (by decide) (by simp) (by simp) rfl hpredicted
    (by decide) (by simp) ?_
  rintro (_ | ⟨a, m⟩) r m' h hrow
  · cases h
    exact absurd hrow (by decide)
  · cases m <;> cases h

/-! ### The first branch of a file -/

theorem rtab_next_of_ne {u : BitVec 32} (r : Remember) (hu : u ≠ g.row) :
    (g.next r).rtab u = g.rtab u := by
  rw [next_eq]
  cases searchRemember r g.predictRemember (g.ras.forecast r).1.correct <;>
    exact Function.update_of_ne hu _ _

theorem rtab_run {u : BitVec 32} {mid : List Record}
    (h : ∀ m r m', mid = m ++ r :: m' → u ≠ (g.run m).row) : (g.run mid).rtab u = g.rtab u := by
  induction mid generalizing g with
  | nil => rfl
  | cons r mid ih =>
    have hr : u ≠ g.row := h [] r mid rfl
    rw [Globals.run_cons, ih fun m r' m' hm => ?_, rtab_next_of_ne _ hr]
    exact h (r :: m) r' m' (by rw [hm, List.cons_append])

theorem rtab_next_miss
    (hfind : searchRemember r g.predictRemember (g.ras.forecast r).1.correct = none) :
    (g.next r).rtab g.row =
      Function.update (g.rtab g.row) (Globals.lruItem (g.rtab g.row)) ⟨r, g.now⟩ := by
  rw [next_eq, hfind]
  exact Function.update_self ..

/-- Where places have other kinds a branch is not found. -/
theorem search_of_kind {t : Fin 8 → Entry} {s : Ras}
    (h : ∀ j, (t j).toRemember.kind ≠ r.kind) :
    searchRemember r t (s.forecast r).1.correct = none := by
  cases hfind : searchRemember r t (s.forecast r).1.correct with
  | none => rfl
  | some k =>
    obtain ⟨hcode, htaken, haddress, htarget⟩ := searchRemember_some hfind
    refine absurd (kind_eq_iff.mpr ⟨hcode, htaken, haddress, ?_⟩) (h k)
    by_cases hreturn : r.code = 0x70
    · exact .inl hreturn
    · rw [forecast_plain _ hreturn] at htarget
      exact .inr (htarget.resolve_left (by simp))

theorem lruItem_zero {t : Fin 8 → Entry} (h : ∀ k, (t k).lruTime = 0) :
    Globals.lruItem t = 0 := by
  simp [Globals.lruItem, h]

theorem Record.Valid.kind_ne {r : Record} (hr : r.Valid) :
    Remember.init.kind ≠ r.remember.kind := by
  intro h
  have hcode := (kind_eq_iff.mp h).1
  exact hr.code_ne_zero hcode.symm

/-- Among places of the time 0 the one that is thrown out is the first. -/
theorem lruItem_first {e : Entry} (he : e.lruTime = 0) :
    Globals.lruItem (Function.update (Globals.init.rtab 0) 0 e) = 0 := by
  refine lruItem_zero fun j => ?_
  rcases eq_or_ne j 0 with rfl | hj
  · simpa using he
  · rw [Function.update_of_ne hj]
    rfl

/-- The first branch of a file is forgotten early: the next branch that is looked up in set 0, if it
    is another one, takes its place, though seven places were never used, and when the first comes
    again it takes all its bytes. -/
theorem compress_first {bufSize : ℕ+} {x y z : Record} {mid mid' : List Record}
    (hvalid : ∀ r ∈ x :: mid ++ z :: mid', r.Valid)
    (hmid : ∀ m r m', mid = m ++ r :: m' → row (x :: m) ≠ 0)
    (hz : row (x :: mid) = 0) (hzx : z.remember.kind ≠ x.remember.kind)
    (hmid' : ∀ m r m', mid' = m ++ r :: m' → row (x :: mid ++ z :: m) ≠ 0)
    (hy : row (x :: mid ++ z :: mid') = 0) (hyx : y.remember = x.remember) :
    compress bufSize ((x :: mid ++ z :: mid').flatMap Record.bytes ++ y.bytes) =
      (compress bufSize ((x :: mid ++ z :: mid').flatMap Record.bytes)).map (· ++ y.bytes) := by
  have hx : x.Valid := hvalid x (by simp)
  have hzValid : z.Valid := hvalid z (by simp)
  have hyValid : y.Valid := by
    have hcodes : y.code = x.code := congrArg Remember.code hyx
    rw [Record.Valid, hcodes]
    exact hx
  -- a set with one place used
  have hother : ∀ (e : Entry) (r : Record), r.Valid → e.kind ≠ r.remember.kind →
      ∀ j, (Function.update (Globals.init.rtab 0) 0 e j).toRemember.kind ≠ r.remember.kind := by
    intro e r hr he j
    rcases eq_or_ne j 0 with rfl | hj
    · rw [Function.update_self]
      exact he
    · rw [Function.update_of_ne hj]
      exact hr.kind_ne
  have hfirst : (Globals.init.next x.remember).rtab 0 =
      Function.update (Globals.init.rtab 0) 0 ⟨x.remember, 0⟩ := by
    have hmiss := rtab_next_miss (g := Globals.init) (r := x.remember)
      (search_of_kind fun _ => hx.kind_ne)
    rwa [lruItem_zero fun _ => rfl] at hmiss
  have hmidRun : (Globals.init.run (x :: mid)).rtab 0 =
      Function.update (Globals.init.rtab 0) 0 ⟨x.remember, 0⟩ := by
    rw [Globals.run_cons, rtab_run fun m r m' hm => ?_, hfirst]
    rw [← Globals.run_cons, row_run]
    exact (hmid m r m' hm).symm
  have hzRun : (Globals.init.run (x :: mid ++ [z])).rtab 0 =
      Function.update (Globals.init.rtab 0) 0 ⟨z.remember, (Globals.init.run (x :: mid)).now⟩ := by
    have hrow : (Globals.init.run (x :: mid)).row = 0 := (row_run _).trans hz
    have hmiss := rtab_next_miss (g := Globals.init.run (x :: mid)) (r := z.remember)
      (search_of_kind (by
        rw [Globals.predictRemember, hrow, hmidRun]
        exact hother _ z hzValid hzx.symm))
    rw [hrow, hmidRun, lruItem_first rfl, Function.update_idem] at hmiss
    rw [Globals.run_append]
    exact hmiss
  have hlast : (Globals.init.run (x :: mid ++ z :: mid')).rtab 0 =
      Function.update (Globals.init.rtab 0) 0 ⟨z.remember, (Globals.init.run (x :: mid)).now⟩ := by
    have hsplit : ∀ m, x :: mid ++ z :: m = (x :: mid ++ [z]) ++ m := fun m => by simp
    rw [hsplit, Globals.run_append, rtab_run fun m r m' hm => ?_, hzRun]
    rw [← Globals.run_append, row_run, ← hsplit]
    exact (hmid' m r m' hm).symm
  have hfind : searchRemember y.remember
      (Globals.init.run (x :: mid ++ z :: mid')).predictRemember
      ((Globals.init.run (x :: mid ++ z :: mid')).ras.forecast y.remember).1.correct = none := by
    refine search_of_kind ?_
    rw [Globals.predictRemember, row_run, hy, hlast, hyx]
    exact hother _ x hx hzx
  have hencode : ((Globals.init.run (x :: mid ++ z :: mid')).encode y.remember).1 =
      y.remember.bytes := by
    simp only [Globals.encode, hfind]
  rw [compress_concat hvalid hyValid, hencode]
  rfl

theorem compress_first_jump :
    compress 4 ((Record.jump 0x100 0x10000 :: [] ++ Record.jump 0x200 0x10000 :: []).flatMap
        Record.bytes ++ (Record.jump 0x100 0x10000).bytes) =
      (compress 4 ((Record.jump 0x100 0x10000 :: [] ++ Record.jump 0x200 0x10000 :: []).flatMap
        Record.bytes)).map (· ++ (Record.jump 0x100 0x10000).bytes) :=
  compress_first (by decide) (by simp) (by decide) (by decide) (by simp) (by decide) rfl

end TraceFile
