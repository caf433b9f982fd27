import Ece116c.Procsim.View

/-! The register scoreboard through the writes of `schedule_phase` and the conditional clears and
    wakeups of retire phase 2.

    A register's entry is its last scheduled writer while that is not announced. An announced
    writer clears the entry only if it is still the last one, so a younger writer is never lost;
    and the wakeup changes exactly the sources whose producer is the announced tag. -/

namespace Procsim
open Window

variable {tr : List TraceInst} {T T' : Timeline} {l : List ℕ}

theorem regTag_set (l : List ℕ) (n v : ℕ) (x : ℤ) (hn : n < l.length) :
    regTag (l.set n v) x = if n = x.toNat then v else regTag l x := by
  simp only [regTag, List.getD_eq_getElem?_getD, List.getElem?_set]
  by_cases h : n = x.toNat
  · subst h; simp [hn]
  · simp [h]

theorem pendingWriter_ne {x : ℤ} (h : pendingWriter tr T x ≠ 0) :
    pendingWriter tr T x = lastWriter tr x T.scheduled ∧
      lastWriter tr x T.scheduled ∉ T.announced := by
  rw [pendingWriter] at h ⊢
  split at h
  · exact absurd rfl h
  · rename_i hn; rw [if_neg hn]; exact ⟨rfl, hn⟩

section Registers

variable (i : ProcInst) (tag : ℕ)

theorem claimDest_length : (claimDest l i tag).length = l.length := by
  rw [claimDest]
  split
  · exact List.length_set
  · rfl

theorem clearDest_length : (clearDest l i tag).length = l.length := by
  rw [clearDest]
  split
  · exact List.length_set
  · rfl

variable {i} {x : ℤ} (hl : l.length = 128) (hd : ValidReg i.destReg) (h0 : 0 ≤ x)

include hl hd h0

/-- What register `x` shows after a claim. -/
theorem regTag_claimDest :
    regTag (claimDest l i tag) x = if i.destReg = x then tag else regTag l x := by
  rw [claimDest]
  rcases hd with hd | hd
  · -- without a destination nothing is written
    rw [if_neg (not_not.mpr hd), if_neg (by omega)]
  · rw [if_pos (by omega), regTag_set _ _ _ _ (by omega)]
    exact if_congr (by omega) rfl rfl

/-- And after a clear. -/
theorem regTag_clearDest : regTag (clearDest l i tag) x =
    if i.destReg = x ∧ regTag l x = tag then 0 else regTag l x := by
  rw [clearDest]
  rcases hd with hd | hd
  · rw [if_neg fun h => h.1 hd, if_neg (by omega)]
  · by_cases hx : i.destReg = x
    · subst hx
      split
      · rename_i hc
        rw [regTag_set _ _ _ _ (by omega), if_pos rfl, if_pos ⟨rfl, hc.2⟩]
      · rename_i hc
        rw [if_neg fun h => hc ⟨by omega, h.2⟩]
    · have hno : ¬ (i.destReg = x ∧ regTag l x = tag) := fun h => hx h.1
      rw [if_neg hno]
      split
      · rw [regTag_set _ _ _ _ (by omega), if_neg (by omega)]
      · rfl

end Registers

/-- Scheduling the next instruction makes it the last writer of its destination. -/
theorem RegRep.claimDest (h : RegRep tr T l) (U : Timeline)
    (hd : ValidReg (inst tr (T.scheduled + 1)).destReg)
    (hs : U.scheduled = T.scheduled + 1) (ha : U.announced = T.announced)
    (hnew : T.scheduled + 1 ∉ T.announced) (i : ProcInst)
    (hi : i.toTraceInst = inst tr (T.scheduled + 1)) :
    RegRep tr U (claimDest l i (T.scheduled + 1)) := by
  have hdest : i.destReg = (inst tr (T.scheduled + 1)).destReg := by rw [hi]
  refine ⟨(claimDest_length i _).trans h.length, fun x h0 h1 => ?_⟩
  rw [regTag_claimDest _ h.length (hdest ▸ hd) h0, pendingWriter, ha, hs, lastWriter, hdest]
  by_cases hx : (inst tr (T.scheduled + 1)).destReg = x
  · rw [if_pos hx, if_pos hx, if_neg hnew]
  · rw [if_neg hx, if_neg hx]
    exact h.tag x h0 h1

/-- Announcing a scheduled tag clears its register exactly when it is the last writer. -/
theorem RegRep.clearDest (h : RegRep tr T l) {tag : ℕ} (hd : ValidReg (inst tr tag).destReg)
    (htag : tag ≠ 0) (hnew : tag ∉ T.announced) (hs : T'.scheduled = T.scheduled)
    (ha : T'.announced = T.announced ++ [tag]) (i : ProcInst) (hi : i.toTraceInst = inst tr tag) :
    RegRep tr T' (clearDest l i tag) := by
  have hdest : i.destReg = (inst tr tag).destReg := by rw [hi]
  refine ⟨(clearDest_length i _).trans h.length, fun x h0 h1 => ?_⟩
  rw [regTag_clearDest _ h.length (hdest ▸ hd) h0, hdest, h.tag x h0 h1]
  by_cases hx : lastWriter tr x T.scheduled = tag
  · -- `tag` is the last writer of `x`, so `x` is its destination and still shows it
    have hdx : (inst tr (lastWriter tr x T.scheduled)).destReg = x :=
      lastWriter_dest T.scheduled (by omega)
    have hshow : pendingWriter tr T x = tag := by rw [pendingWriter, hx, if_neg hnew]
    have hnext : pendingWriter tr T' x = 0 := by
      rw [pendingWriter, hs, ha, hx, if_pos (List.mem_append_right _ (List.mem_singleton_self _))]
    rw [hx] at hdx
    rw [if_pos ⟨hdx, hshow⟩, hnext]
  · -- a register shows its last writer only
    have hshow : pendingWriter tr T x ≠ tag :=
      fun he => hx ((pendingWriter_ne (he ▸ htag)).1.symm.trans he)
    rw [if_neg fun hc => hshow hc.2, pendingWriter, pendingWriter, hs, ha]
    simp [hx]

/-- What `schedule_phase` reads for a source: done, or the producer it has to wait for. -/
theorem RegRep.source (h : RegRep tr T l) (s : Fin 2)
    (hv : ValidReg ((inst tr (T.scheduled + 1)).srcReg s)) :
    srcReadyOf l ((inst tr (T.scheduled + 1)).srcReg s) = srcDone tr T s (T.scheduled + 1) ∧
      srcTagOf l ((inst tr (T.scheduled + 1)).srcReg s) = srcWait tr T s (T.scheduled + 1) := by
  have hprod : producer tr s (T.scheduled + 1) =
      if (inst tr (T.scheduled + 1)).srcReg s = -1 then 0
      else lastWriter tr ((inst tr (T.scheduled + 1)).srcReg s) T.scheduled := rfl
  rcases hv with hv | hv
  · have hp : producer tr s (T.scheduled + 1) = 0 := by rw [hprod, if_pos hv]
    simp [srcReadyOf, srcTagOf, srcDone, srcWait, hv, hp]
  · have hne : (inst tr (T.scheduled + 1)).srcReg s ≠ -1 := by omega
    rw [if_neg hne] at hprod
    have htag := h.tag _ hv.1 hv.2
    rw [pendingWriter, ← hprod] at htag
    have hb : ((inst tr (T.scheduled + 1)).srcReg s == -1) = false := by simpa using hne
    by_cases ha : producer tr s (T.scheduled + 1) ∈ T.announced
    · rw [if_pos ha] at htag
      simp [srcReadyOf, srcTagOf, srcDone, srcWait, htag, ha]
    · rw [if_neg ha] at htag
      have hz : (producer tr s (T.scheduled + 1) == 0) =
          decide (producer tr s (T.scheduled + 1) = 0) := rfl
      simp [srcReadyOf, srcTagOf, srcDone, srcWait, htag, ha, hb, hz]

section Wakeup

variable (tag : ℕ) (e : ScheduleEntry)

@[simp] theorem wakeup_instruction : (wakeup tag e).instruction = e.instruction := rfl
@[simp] theorem wakeup_tag : (wakeup tag e).tag = e.tag := rfl
@[simp] theorem wakeup_fired : (wakeup tag e).fired = e.fired := rfl
@[simp] theorem wakeup_fuIndex : (wakeup tag e).fuIndex = e.fuIndex := rfl
@[simp] theorem wakeup_fuType : (wakeup tag e).fuType = e.fuType := rfl
@[simp] theorem wakeup_broadcast : (wakeup tag e).broadcast = e.broadcast := rfl
@[simp] theorem wakeup_onResultBus : (wakeup tag e).onResultBus = e.onResultBus := rfl

theorem wakeup_src (s : Fin 2) :
    (wakeup tag e).srcReady s = (e.srcReady s || (!e.srcReady s && e.srcTag s == tag)) ∧
      (wakeup tag e).srcTag s =
        if !e.srcReady s && e.srcTag s == tag then 0 else e.srcTag s := by
  have hor : ∀ a b : Bool, (if (!a && b) = true then true else a) = (a || !a && b) := by decide
  match s with
  | 0 => exact ⟨hor _ _, rfl⟩
  | 1 => exact ⟨hor _ _, rfl⟩

end Wakeup

section Announce

variable {tag : ℕ} (ha : T'.announced = T.announced ++ [tag]) (s : Fin 2) (i : ℕ)

include ha

/-- A source that waits for `tag` is done now, every other one keeps its state. -/
theorem srcDone_announce : srcDone tr T' s i =
    (srcDone tr T s i || (!srcDone tr T s i && srcWait tr T s i == tag)) := by
  rw [srcDone, srcDone, srcWait, srcDone, ha]
  by_cases hp : producer tr s i = 0 ∨ producer tr s i ∈ T.announced
  · have hp' : producer tr s i = 0 ∨ producer tr s i ∈ T.announced ++ [tag] :=
      hp.imp id fun h => List.mem_append_left _ h
    simp only [hp, hp', decide_true, Bool.true_or]
  · obtain ⟨h0, hnot⟩ := not_or.mp hp
    have ht : (producer tr s i == tag) = decide (producer tr s i = tag) := rfl
    simp [h0, hnot, ht]

theorem srcWait_announce : srcWait tr T' s i =
    if (!srcDone tr T s i && srcWait tr T s i == tag) then 0 else srcWait tr T s i := by
  rw [srcWait, srcDone_announce ha]
  by_cases hd : srcDone tr T s i = true
  · simp [hd, srcWait]
  · by_cases ht : srcWait tr T s i = tag
    · simp [ht, hd]
    · simp only [srcWait, hd, Bool.false_eq_true, if_false] at ht
      simp [hd, srcWait, ht]

end Announce

/-- The entry of tag `i` when `tag` is announced: its own flag, and the sources that waited. -/
theorem wakeup_entry {tag : ℕ} (ha : T'.announced = T.announced ++ [tag])
    (hb : ∀ i, i ∈ T'.announced ∨ i ∈ T'.bus ↔ i ∈ T.announced ∨ i ∈ T.bus)
    (hrec : record tr T' = record tr T) (hunit : T'.unit = T.unit) (i : ℕ) :
    wakeup tag (if i = tag then { entry tr T i with broadcast := true } else entry tr T i) =
      entry tr T' i := by
  have hexec : T'.exec i = T.exec i := congrArg ProcInst.execCycle (congrFun hrec i)
  -- the announced entry differs from the old one in its flag only
  obtain ⟨b, he, hbr⟩ : ∃ b, (if i = tag then { entry tr T i with broadcast := true }
      else entry tr T i) = { entry tr T i with broadcast := b } ∧
        b = decide (i ∈ T'.announced) := by
    rw [ha]
    by_cases hi : i = tag
    · exact ⟨true, if_pos hi, by simp [hi]⟩
    · exact ⟨(entry tr T i).broadcast, if_neg hi, by simp [hi, entry]⟩
  rw [he]
  have hw := wakeup_src tag { entry tr T i with broadcast := b }
  refine ScheduleEntry.ext ?_ rfl ?_ ?_ ?_ hbr ?_ ?_ ?_ ?_ ?_
  · exact (congrFun hrec i).symm
  · simp [entry, hexec]
  · simp [entry, hexec, hunit]
  · simp [entry, hexec]
  · exact (decide_eq_decide.mpr (hb i)).symm
  · exact (hw 0).1.trans (srcDone_announce ha 0 i).symm
  · exact (hw 0).2.trans (srcWait_announce ha 0 i).symm
  · exact (hw 1).1.trans (srcDone_announce ha 1 i).symm
  · exact (hw 1).2.trans (srcWait_announce ha 1 i).symm

end Procsim
