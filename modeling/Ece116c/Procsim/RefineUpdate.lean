import Ece116c.Procsim.Scoreboard
import Ece116c.Procsim.Run
import Ece116c.Window.Update

/-! `state_update_phase` refines `Timeline.update`, part by part.

    Each part takes the views of a timeline to the views of the timeline after the matching step of
    the abstract machine. What a part needs beyond the views (tags that are found, queues without
    repetition, exclusive units) is a hypothesis on the timeline, discharged at the end from the
    invariant. -/

namespace Procsim
open Window Lists

variable {cfg : Config} {tr : List TraceInst} {c : ℕ} {T : Timeline} {s : Proc}

/-- Only the record of `t` has tag `t`. -/
theorem entry_tag_eq {t : ℕ} (a : ℕ) (h : ((entry tr T a).tag == t) = true) : a = t := by
  simpa [entry] using h

/-- The search by tag finds the entry of every tag in the window. -/
theorem Rep.find_tag (h : Rep tr cfg c T s) {i : ℕ} (hi : i ∈ T.window) :
    s.scheduleQueue.find? (fun e => e.tag == i) = some (entry tr T i) := by
  have htest : ∀ a ∈ T.window, ((entry tr T a).tag == i) = true → a = i := fun a _ => entry_tag_eq a
  rw [h.scheduleQueue, find?_map T.window htest]
  exact if_pos ⟨hi, beq_self_eq_true i⟩

/-! ### Retire phase 1 -/

theorem removeRetired_map (l W : List ℕ) (hl : l.Nodup) (hW : W.Nodup) (hsub : ∀ i ∈ l, i ∈ W) :
    removeRetired l (W.map (entry tr T)) = ([], (W.filter (fun i => i ∉ l)).map (entry tr T)) := by
  induction l generalizing W with
  | nil => simp [removeRetired]
  | cons t l ih =>
    have hnd := List.nodup_cons.mp hl
    have ht : t ∈ W := hsub t (List.mem_cons_self ..)
    have hkey : ∀ a ∈ W, ((entry tr T a).tag == t) = true → a = t := fun a _ => entry_tag_eq a
    have htt : ((entry tr T t).tag == t) = true := by simp [entry]
    rw [removeRetired, find?_map W hkey, if_pos ⟨ht, htt⟩]
    simp only
    have herase : (W.map (entry tr T)).eraseP (fun e => e.tag == t) =
        (W.filter (fun a => a ≠ t)).map (entry tr T) :=
      eraseP_map (p := fun e : ScheduleEntry => e.tag == t) (g := entry tr T) htt W hkey hW
    rw [herase, ih _ hnd.2 (hW.filter _) fun i hi => ?_]
    · rw [List.filter_filter]
      refine congrArg (fun x => (([] : List ℕ), List.map (entry tr T) x)) ?_
      refine List.filter_congr fun a _ => ?_
      simp [Bool.and_comm]
    · refine List.mem_filter.mpr ⟨hsub i (List.mem_cons_of_mem _ hi), ?_⟩
      simpa using fun e : i = t => hnd.1 (e ▸ hi)

theorem retirePhase1_rep (h : Rep tr cfg c T s) (hW : T.window.Nodup) (hl : T.leaving.Nodup)
    (hsub : ∀ i ∈ T.leaving, i ∈ T.window) : Rep tr cfg c T.evict (retirePhase1 s) := by
  have hout : removeRetired s.retiredQueue s.scheduleQueue =
      ([], (T.window.filter (fun i => i ∉ T.leaving)).map (entry tr T)) := by
    rw [h.retiredQueue, h.scheduleQueue]
    exact removeRetired_map T.leaving T.window hl hW hsub
  exact { h with
    scheduleQueue := congrArg Prod.snd hout
    retiredQueue := congrArg Prod.fst hout
    units := ⟨h.units.length, h.units.held, h.units.busy⟩
    registerTag := ⟨h.registerTag.length, h.registerTag.tag⟩ }

/-! ### Retire phase 2 -/

/-- The first `n` instructions in line are announced. -/
def announceN (n : ℕ) (T : Timeline) : Timeline :=
  { T with
    announced := T.announced ++ T.bus.take n
    leaving := T.leaving ++ T.bus.take n
    bus := T.bus.drop n }

section Announce

variable {tag : ℕ} {rest : List ℕ} (hbus : T.bus = tag :: rest)

include hbus

theorem announceN_one : (announceN 1 T).announced = T.announced ++ [tag] ∧
    (announceN 1 T).bus = rest := by
  simp [announceN, hbus]

theorem announceN_succ (n : ℕ) : announceN (n + 1) T = announceN n (announceN 1 T) := by
  simp [announceN, hbus]

end Announce

theorem broadcastTag_rep (hv : ValidTrace tr) {tag : ℕ} {rest : List ℕ} (h : Rep tr cfg c T s)
    (hbus : T.bus = tag :: rest) (hW : T.window.Nodup) (htag : tag ∈ T.window) (h0 : tag ≠ 0)
    (hnew : tag ∉ T.announced) :
    Rep tr cfg c (announceN 1 T) (broadcastTag tag { s with resultBusQueue := rest }) := by
  have hkey : ∀ a ∈ T.window, ((entry tr T a).tag == tag) = true → a = tag :=
    fun a _ => entry_tag_eq a
  have htt : ((entry tr T tag).tag == tag) = true := by simp [entry]
  have hfind := h.find_tag htag
  obtain ⟨hann, hrest⟩ := announceN_one hbus
  have hb : ∀ i, i ∈ (announceN 1 T).announced ∨ i ∈ (announceN 1 T).bus ↔
      i ∈ T.announced ∨ i ∈ T.bus := by
    intro i
    rw [hann, hrest, hbus]
    simp only [List.mem_append, List.mem_cons, List.not_mem_nil, or_false]
    tauto
  have hqueue : (updateFirst (fun e => e.tag == tag) (fun e => { e with broadcast := true })
      s.scheduleQueue).map (wakeup tag) = T.window.map (entry tr (announceN 1 T)) := by
    rw [h.scheduleQueue, updateFirst_map _ T.window hkey hW, List.map_map]
    refine List.map_congr_left fun i _ => ?_
    simp only [Function.comp_apply, htt, and_true]
    exact wakeup_entry hann hb rfl rfl i
  simp only [broadcastTag, hfind]
  exact { h with
    scheduleQueue := hqueue
    resultBusQueue := hrest.symm
    retiredQueue := by
      change s.retiredQueue ++ [tag] = T.leaving ++ T.bus.take 1
      rw [h.retiredQueue, hbus]; rfl
    completedInstructions := by
      change s.completedInstructions ++ [(entry tr T tag).instruction] = _
      rw [hann, h.completedInstructions, List.map_append]; rfl
    units := ⟨h.units.length, h.units.held, h.units.busy⟩
    registerTag := by
      refine h.registerTag.clearDest (hv.inst tag).dest h0 hnew ?_ hann _ rfl
      rfl
    totalInstRetired := by
      change s.totalInstRetired + 1 = _
      rw [hann, h.totalInstRetired, List.length_append]; rfl }

theorem broadcastLoop_rep (hv : ValidTrace tr) (n : ℕ) (T : Timeline) (s : Proc)
    (h : Rep tr cfg c T s) (hW : T.window.Nodup) (hin : ∀ i ∈ T.bus.take n, i ∈ T.window ∧ i ≠ 0)
    (hnd : (T.announced ++ T.bus).Nodup) (hlen : n ≤ T.bus.length) :
    Rep tr cfg c (announceN n T) (broadcastLoop n s) := by
  induction n generalizing T s with
  | zero =>
    have hsame : announceN 0 T = T := by simp [announceN]
    rw [hsame]
    exact h
  | succ n ih =>
    obtain ⟨tag, rest, hbus⟩ : ∃ tag rest, T.bus = tag :: rest := by
      cases hb : T.bus with
      | nil =>
        rw [hb] at hlen
        simp at hlen
      | cons tag rest => exact ⟨tag, rest, rfl⟩
    have htag := hin tag (by simp [hbus])
    have hnew : tag ∉ T.announced := fun hm =>
      (List.nodup_append.mp hnd).2.2 tag hm tag (by simp [hbus]) rfl
    have hone := broadcastTag_rep hv h hbus hW htag.1 htag.2 hnew
    obtain ⟨hann, hrest⟩ := announceN_one hbus
    have hsbus : s.resultBusQueue = tag :: rest := by rw [h.resultBusQueue, hbus]
    rw [broadcastLoop, hsbus, announceN_succ hbus]
    simp only
    refine ih _ _ hone hW (fun i hi => hin i ?_) ?_ ?_
    · rw [hrest] at hi
      simp [hbus, hi]
    · rw [hann, hrest, List.append_assoc, List.singleton_append, ← hbus]
      exact hnd
    · rw [hbus, List.length_cons] at hlen
      rw [hrest]
      omega

theorem retirePhase2_rep (hv : ValidTrace tr) (h : Rep tr cfg c T s) (hW : T.window.Nodup)
    (hin : ∀ i ∈ T.bus.take cfg.r, i ∈ T.window ∧ i ≠ 0) (hnd : (T.announced ++ T.bus).Nodup) :
    Rep tr cfg c (T.announce (machine cfg)) (retirePhase2 cfg s) := by
  have hsame : T.announce (machine cfg) = announceN (min cfg.r T.bus.length) T := by
    rcases Nat.le_total cfg.r T.bus.length with hle | hle
    · rw [Nat.min_eq_left hle]; rfl
    · rw [Nat.min_eq_right hle]
      simp [announceN, Timeline.announce, machine, List.take_of_length_le hle,
        List.drop_eq_nil_of_le hle]
  rw [hsame, retirePhase2, h.resultBusQueue]
  refine broadcastLoop_rep hv _ T s h hW (fun i hi => hin i ?_) hnd (Nat.min_le_right ..)
  exact (List.take_sublist_take_left (Nat.min_le_left ..)).subset hi

/-! ### Decrement and sort -/

theorem decrementPhase_units (s : Proc) (t : FuType) :
    (decrementPhase s).units.get t = decrementFu (s.units.get t) := by
  cases t <;> rfl

theorem decrementPhase_rep (h : Rep tr cfg c T s) (hle : ∀ i, T.exec i ≤ c) :
    Rep tr cfg (c + 1) T (decrementPhase s) := by
  refine { h with units := ⟨fun t => ?_, fun i t hi hk => ?_, fun t j u hu hb => ?_⟩ }
  · rw [decrementPhase_units, decrementFu, List.length_map, h.units.length]
  · have hold := h.units.held i t hi hk
    have hlt : T.exec i ≠ c + 1 := by have := hle i; omega
    rw [decrementPhase_units, decrementFu, List.getElem?_map, hold, if_neg hlt]
    by_cases he : T.exec i = c
    · rw [if_pos he]; rfl
    · rw [if_neg he]; rfl
  · rw [decrementPhase_units, decrementFu, List.getElem?_map] at hu
    obtain ⟨v, hv, rfl⟩ := Option.map_eq_some_iff.mp hu
    refine h.units.busy t j v hv ?_
    split at hb <;> exact hb

theorem insertionSort_entries : ∀ l : List ℕ, l.Pairwise (· < ·) →
    (l.map (entry tr T)).insertionSort (fun a b => a.tag ≤ b.tag) = l.map (entry tr T) := by
  intro l hl
  refine List.Pairwise.insertionSort_eq (List.pairwise_map.mpr ?_)
  exact hl.imp fun {a b} hab => Nat.le_of_lt hab

theorem sortPhase_eq (h : Rep tr cfg c T s) (hs : T.window.Pairwise (· < ·)) :
    sortPhase s = s := by
  rw [sortPhase, h.scheduleQueue, insertionSort_entries T.window hs, ← h.scheduleQueue]

/-! ### Collect -/

theorem justCompleted_entry (h : Rep tr cfg c T s) {i : ℕ} (hi : i ∈ T.window)
    (hfin : ∀ i ∈ T.finishing, T.Held i ∧ T.exec i ≠ c ∧ ∃ t, (workload tr).kind i = some t) :
    justCompleted s.units (entry tr T i) = decide (i ∈ T.finishing) := by
  by_cases hf : i ∈ T.finishing
  · obtain ⟨hheld, hne, t, hk⟩ := hfin i hf
    have hf' := hf
    simp only [Timeline.finishing, List.mem_filter, decide_eq_true_eq] at hf'
    have hunit := h.units.held i t hheld hk
    rw [if_neg hne] at hunit
    have hentry : entryUnit s.units (entry tr T i) = some ⟨true, 0, i⟩ := by
      simp only [entryUnit, entry, if_pos hheld.1, hk, hunit]
    rw [justCompleted, hentry]
    simp [hf, entry, hf'.2]
  · have hno : ¬ (T.exec i ≠ 0 ∧ i ∉ T.announced ∧ i ∉ T.bus) := by
      simpa [Timeline.finishing, hi] using hf
    have hflags : ((entry tr T i).fired && !(entry tr T i).broadcast &&
        !(entry tr T i).onResultBus) = false := by
      rw [Bool.eq_false_iff]
      intro hh
      simp only [entry, Bool.and_eq_true, decide_eq_true_eq, Bool.not_eq_true',
        decide_eq_false_iff_not, not_or] at hh
      exact hno ⟨hh.1.1, hh.1.2, hh.2.2⟩
    rw [justCompleted, hflags, Bool.false_and, decide_eq_false hf]

theorem entry_collect (i : ℕ) : entry tr T.collect i =
    if i ∈ T.finishing then { entry tr T i with onResultBus := true } else entry tr T i := by
  by_cases hf : i ∈ T.finishing
  · rw [if_pos hf]
    exact ScheduleEntry.ext rfl rfl rfl rfl rfl rfl
      (by simp [entry, Timeline.collect, hf]) rfl rfl rfl rfl
  · rw [if_neg hf]
    exact ScheduleEntry.ext rfl rfl rfl rfl rfl rfl
      (by simp [entry, Timeline.collect, hf]) rfl rfl rfl rfl

theorem collectPhase_rep (h : Rep tr cfg c T s) (hs : T.window.Pairwise (· < ·))
    (hfin : ∀ i ∈ T.finishing, T.Held i ∧ T.exec i ≠ c ∧ ∃ t, (workload tr).kind i = some t) :
    Rep tr cfg c T.collect (collectPhase s) := by
  have hjust : ∀ i ∈ T.window, justCompleted s.units (entry tr T i) = decide (i ∈ T.finishing) :=
    fun i hi => justCompleted_entry h hi hfin
  have htags : ((T.window.map (entry tr T)).filter (justCompleted s.units)).map (·.tag) =
      T.finishing := by
    rw [List.filter_map, List.map_map]
    have hid : (fun i => ((fun e : ScheduleEntry => e.tag) ∘ entry tr T) i) = id := rfl
    rw [show ((fun e : ScheduleEntry => e.tag) ∘ entry tr T) = id from hid, List.map_id]
    have hfilter : T.window.filter (justCompleted s.units ∘ entry tr T) =
        T.window.filter (fun i => decide (i ∈ T.finishing)) :=
      List.filter_congr fun i hi => hjust i hi
    rw [hfilter]
    refine List.filter_congr fun i hi => ?_
    simp [Timeline.finishing, hi]
  have hsorted : T.finishing.insertionSort (· ≤ ·) = T.finishing :=
    List.Pairwise.insertionSort_eq
      ((hs.sublist List.filter_sublist).imp fun {a b} hab => Nat.le_of_lt hab)
  exact { h with
    scheduleQueue := by
      change s.scheduleQueue.map _ = _
      rw [h.scheduleQueue, List.map_map]
      refine List.map_congr_left fun i hi => ?_
      simp only [Function.comp_apply, hjust i hi, decide_eq_true_eq]
      exact (entry_collect i).symm
    resultBusQueue := by
      change s.resultBusQueue ++ _ = T.bus ++ T.finishing
      simp only [h.scheduleQueue, htags, hsorted, h.resultBusQueue]
    units := ⟨h.units.length, h.units.held, h.units.busy⟩
    registerTag := ⟨h.registerTag.length, h.registerTag.tag⟩ }

/-! ### Assign state cycles -/

/-- The instructions of `l` without a stamp get the stamp `c`. -/
def stampList (c : ℕ) (T : Timeline) (l : List ℕ) : Timeline :=
  { T with state := fun i => if i ∈ l ∧ T.state i = 0 then c else T.state i }

/-- Different holders of one kind hold different units. -/
def Exclusive (tr : List TraceInst) (T : Timeline) : Prop :=
  ∀ i j, T.Held i → T.Held j → (workload tr).kind i = (workload tr).kind j →
    T.unit i = T.unit j → i = j

theorem freeUnit_eq (b : FuBank) {e : ScheduleEntry} {t : FuType} {j : ℕ}
    (ht : e.fuType = some t) (hj : e.fuIndex = some j) :
    freeUnit b e =
      b.set ((b.get t).modify j fun u => { u with busy := false, cycles := 0 }) t := by
  rw [freeUnit, ht, hj]

/-- Freeing the unit of a holder leaves the units of everybody else. -/
theorem BankRep.freeUnit {b : FuBank} {i : ℕ} (hc : c ≠ 0) (h : BankRep tr cfg c T b)
    (hex : Exclusive tr T) (hi : T.Held i) {t : FuType} (hk : (workload tr).kind i = some t) :
    BankRep tr cfg c (stampList c T [i]) (freeUnit b (entry tr T i)) := by
  have hty : (entry tr T i).fuType = some t := by simp [entry, hi.1, hk]
  have hix : (entry tr T i).fuIndex = some (T.unit i) := by simp [entry, hi.1]
  rw [freeUnit_eq b hty hix]
  -- `i` is no holder any more, everybody else is one as before
  have hheld : ∀ a, (stampList c T [i]).Held a ↔ T.Held a ∧ a ≠ i := by
    intro a
    simp only [Timeline.Held, stampList, List.mem_singleton]
    by_cases ha : a = i
    · subst ha; simp [hi.2, hc]
    · simp [ha]
  refine ⟨fun t' => (FuBank.length_modify ..).trans (h.length t'), fun a t' ha hka => ?_,
    fun t' j u hu hb => ?_⟩
  · obtain ⟨ha, hne⟩ := (hheld a).mp ha
    have hother : ¬ (t' = t ∧ T.unit a = T.unit i) := by
      rintro ⟨rfl, hu⟩
      exact hne (hex a i ha hi (hka.trans hk.symm) hu)
    exact (FuBank.getElem?_modify ..).trans ((if_neg hother).trans (h.held a t' ha hka))
  · rw [FuBank.getElem?_modify] at hu
    by_cases hself : t' = t ∧ j = T.unit i
    · rw [if_pos hself] at hu
      obtain ⟨v, -, rfl⟩ := Option.map_eq_some_iff.mp hu
      cases hb
    · rw [if_neg hself] at hu
      obtain ⟨a, ha, hka, hua⟩ := h.busy t' j u hu hb
      have hai : a ≠ i := by
        rintro rfl
        exact hself ⟨Option.some.inj (hka.symm.trans hk), hua.symm⟩
      exact ⟨a, (hheld a).mpr ⟨ha, hai⟩, hka, hua⟩

theorem unstamped_entry (t i : ℕ) :
    unstamped t (entry tr T i) = true ↔ i = t ∧ T.state i = 0 := by
  simp [unstamped, entry, record]

theorem record_stamp {i : ℕ} (a : ℕ) (ha : a ≠ i) :
    record tr (stampList c T [i]) a = record tr T a := by
  simp [record, stampList, ha]

/-- A second stamp does nothing. -/
theorem stampList_of_stamped {i : ℕ} (hs : T.state i ≠ 0) : stampList c T [i] = T := by
  have hstate : (fun a => if a ∈ [i] ∧ T.state a = 0 then c else T.state a) = T.state := by
    funext a
    rw [if_neg]
    rintro ⟨ha, h0⟩
    rw [List.mem_singleton] at ha
    subst ha
    exact hs h0
  rw [stampList, hstate]

/-- Stamps are given one after the other. -/
theorem stampList_cons (hc : c ≠ 0) (i : ℕ) (l : List ℕ) :
    stampList c T (i :: l) = stampList c (stampList c T [i]) l := by
  simp only [stampList]
  congr 1
  funext a
  by_cases ha : a = i
  · subst ha
    by_cases h0 : T.state a = 0
    · simp [h0, hc]
    · simp [h0]
  · simp [ha]

theorem Exclusive.stampList (h : Exclusive tr T) (hc : c ≠ 0) (l : List ℕ) :
    Exclusive tr (stampList c T l) := by
  have hsub : ∀ a, (Procsim.stampList c T l).Held a → T.Held a := by
    rintro a ⟨he, hs⟩
    refine ⟨he, ?_⟩
    simp only [Procsim.stampList] at hs
    split at hs
    · exact absurd hs hc
    · exact hs
  exact fun a b ha hb => h a b (hsub a ha) (hsub b hb)

/-- The queue with the first unstamped entry of a tag stamped. -/
theorem stamped_queue (hW : T.window.Nodup) {i : ℕ} (hs : T.state i = 0) :
    updateFirst (unstamped i)
        (fun e => { e with instruction := { e.instruction with stateCycle := c } })
        (T.window.map (entry tr T)) = T.window.map (entry tr (stampList c T [i])) := by
  have hkey : ∀ a ∈ T.window, unstamped i (entry tr T a) = true → a = i :=
    fun a _ ha => ((unstamped_entry i a).mp ha).1
  rw [updateFirst_map _ T.window hkey hW]
  refine List.map_congr_left fun a _ => ?_
  by_cases ha : a = i
  · subst ha
    rw [if_pos ⟨rfl, (unstamped_entry a a).mpr ⟨rfl, hs⟩⟩]
    simp [entry, record, stampList, hs, srcDone, srcWait]
  · rw [if_neg fun hh => ha hh.1]
    simp only [entry, record_stamp a ha]
    rfl

/-- The stamp of one tag that is in the window and has started. -/
theorem assignState_rep (h : Rep tr cfg c T s) (hcyc : s.cycleCount = c) (hc : c ≠ 0)
    (hW : T.window.Nodup) (hex : Exclusive tr T) {i : ℕ} (hi : i ∈ T.window) (he : T.exec i ≠ 0)
    (hna : i ∉ T.announced) (hnq : i ≤ T.scheduled) (hSD : T.scheduled ≤ T.dispatched)
    (hk : ∃ t, (workload tr).kind i = some t) :
    Rep tr cfg c (stampList c T [i]) (assignState s i) := by
  have hfind : s.scheduleQueue.find? (unstamped i) =
      if T.state i = 0 then some (entry tr T i) else none := by
    have hkey : ∀ a ∈ T.window, unstamped i (entry tr T a) = true → a = i :=
      fun a _ ha => ((unstamped_entry i a).mp ha).1
    rw [h.scheduleQueue, find?_map T.window hkey]
    simp [hi, unstamped_entry]
  by_cases hs : T.state i = 0
  · obtain ⟨t, hk⟩ := hk
    rw [if_pos hs] at hfind
    simp only [assignState, hfind]
    exact { h with
      fetchQueue := by
        refine records_congr record_stamp (fun a ha => ?_) h.fetchQueue
        have ha' : T.dispatched + 1 ≤ a ∧ _ := List.mem_range'_1.mp ha
        omega
      dispatchQueue := by
        refine records_congr record_stamp (fun a ha => ?_) h.dispatchQueue
        have ha' : T.scheduled + 1 ≤ a ∧ _ := List.mem_range'_1.mp ha
        omega
      scheduleQueue := by
        change updateFirst (unstamped i) _ s.scheduleQueue = T.window.map _
        rw [h.scheduleQueue, hcyc]
        exact stamped_queue hW hs
      completedInstructions := by
        refine records_congr record_stamp (fun a ha => ?_) h.completedInstructions
        rintro rfl
        exact hna ha
      units := h.units.freeUnit hc hex ⟨he, hs⟩ hk
      registerTag := ⟨h.registerTag.length, h.registerTag.tag⟩ }
  · rw [if_neg hs] at hfind
    simp only [assignState, hfind, stampList_of_stamped hs]
    exact h

theorem foldl_assignState_rep (hc : c ≠ 0) (l : List ℕ) (T : Timeline) (s : Proc)
    (h : Rep tr cfg c T s) (hcyc : s.cycleCount = c) (hW : T.window.Nodup) (hex : Exclusive tr T)
    (hSD : T.scheduled ≤ T.dispatched)
    (hin : ∀ i ∈ l, i ∈ T.window ∧ T.exec i ≠ 0 ∧ i ∉ T.announced ∧ i ≤ T.scheduled ∧
      ∃ t, (workload tr).kind i = some t) :
    Rep tr cfg c (stampList c T l) (l.foldl assignState s) := by
  induction l generalizing T s with
  | nil =>
    have hsame : stampList c T [] = T := by simp [stampList]
    rw [hsame]
    exact h
  | cons i l ih =>
    obtain ⟨hi, he, hna, hle, hk⟩ := hin i (List.mem_cons_self ..)
    have hone := assignState_rep h hcyc hc hW hex hi he hna hle hSD hk
    rw [List.foldl_cons, stampList_cons hc]
    refine ih _ _ hone ?_ hW (hex.stampList hc [i]) hSD fun a ha =>
      hin a (List.mem_cons_of_mem _ ha)
    rw [← hcyc, assignState]
    split <;> rfl

/-! ### The whole phase -/

theorem Inv.exclusive_of {w : Workload FuType} {m : Machine FuType} (h : Timeline.Inv m w c T)
    {i j : ℕ} (hi : T.Held i) (hj : T.Held j) (hk : w.kind i = w.kind j)
    (hu : T.unit i = T.unit j) : i = j := by
  by_contra hne
  rcases h.exclusive i j hne hi.1 hj.1 hk hu with hs | hs
  · exact hs.1 hi.2
  · exact hs.1 hj.2

section StateUpdate

variable (hinv : T.Inv (machine cfg) (workload tr) c)

include hinv

theorem state_scheduled {i : ℕ} (hi : T.state i ≠ 0) : 1 ≤ i ∧ i ≤ T.scheduled := by
  have hx := hinv.exec_sched i (hinv.state_exec i hi).1
  exact ⟨hx.1, hx.2.1⟩

/-- Retire phase 1: what was broadcast a cycle ago goes. -/
theorem evict_rep (h : Rep tr cfg c T s) : Rep tr cfg c T.evict (retirePhase1 s) :=
  retirePhase1_rep h hinv.window_nodup hinv.leaving_nodup fun i hi =>
    ((hinv.mem_leaving i).mp hi).1

/-- Who has a bus is found in what is left. -/
theorem granted_window {i : ℕ} (hi : i ∈ T.bus.take cfg.r) : i ∈ T.evict.window ∧ i ≠ 0 := by
  have hs := (hinv.granted_mem i).mp hi
  have hin := state_scheduled hinv hs.1
  refine ⟨List.mem_filter.mpr ⟨(hinv.window_mem i).mpr ⟨hin, by omega⟩, ?_⟩, by omega⟩
  rw [decide_eq_true_eq, hinv.leaving_mem]
  omega

/-- Both retire phases: then what has a bus is broadcast. -/
theorem retire_rep (hv : ValidTrace tr) (h : Rep tr cfg c T s) :
    Rep tr cfg c (T.evict.announce (machine cfg)) (retirePhase2 cfg (retirePhase1 s)) :=
  retirePhase2_rep hv (evict_rep hinv h) (hinv.window_nodup.filter _)
    (fun _ hi => granted_window hinv hi) hinv.line_nodup

/-- The instructions collected started in an earlier cycle. -/
theorem finishing_started {i : ℕ} (hi : i ∈ (T.evict.announce (machine cfg)).finishing) :
    T.Held i ∧ T.exec i ≠ c + 1 ∧ ∃ t, (workload tr).kind i = some t := by
  have he := (hinv.mem_finishing i).mp hi
  have hst := hinv.state_exec i
  have hle := hinv.state_le i
  exact ⟨⟨he.1, by omega⟩, by omega, (hinv.kind_unit i he.1).imp fun t ht => ht.1⟩

/-- Everybody in line for a bus has started, has no stamp and is in the window. -/
theorem mem_nextBus_window {i : ℕ} (hi : i ∈ T.nextBus (machine cfg)) :
    i ∈ T.evict.window ∧ T.exec i ≠ 0 ∧ i ∉ (T.evict.announce (machine cfg)).announced ∧
      i ≤ T.scheduled ∧ ∃ t, (workload tr).kind i = some t := by
  have hheld := (hinv.mem_nextBus i).mp hi
  have hin := hinv.exec_sched i hheld.1
  refine ⟨hinv.held_mem_evict hheld, hheld.1, fun ha => ?_, hin.2.1,
    (hinv.kind_unit i hheld.1).imp fun t ht => ht.1⟩
  rcases List.mem_append.mp ha with ha | ha
  · exact ((hinv.announced_mem i).mp ha).1 hheld.2
  · exact ((hinv.granted_mem i).mp ha).1 hheld.2

/-- `state_update_phase` of cycle `c + 1` refines the update of the abstract machine. -/
theorem stateUpdatePhase_rep (hv : ValidTrace tr) (h : Rep tr cfg c T s)
    (hcyc : s.cycleCount = c + 1) :
    Rep tr cfg (c + 1) (T.update (machine cfg) (c + 1)) (stateUpdatePhase cfg s) := by
  have hW : T.evict.window.Pairwise (· < ·) := hinv.window_sorted.sublist List.filter_sublist
  have hdec := decrementPhase_rep (retire_rep hinv hv h) hinv.exec_le
  have hcol := collectPhase_rep hdec hW fun i hi => finishing_started hinv hi
  have hcyc' : (collectPhase (decrementPhase (retirePhase2 cfg (retirePhase1 s)))).cycleCount =
      c + 1 := by
    rw [← hcyc]
    exact broadcastLoop_cycleCount _ (retirePhase1 s)
  have htake : ∀ l : List ℕ, l.take (min l.length cfg.r) = l.take cfg.r := fun l => by
    rcases Nat.le_total l.length cfg.r with hle | hle
    · rw [Nat.min_eq_left hle, List.take_of_length_le hle, List.take_length]
    · rw [Nat.min_eq_right hle]
  rw [stateUpdatePhase, sortPhase_eq hdec hW, assignPhase, hcol.resultBusQueue, htake]
  exact foldl_assignState_rep (Nat.succ_ne_zero c) _ _ _ hcol hcyc' (hinv.window_nodup.filter _)
    (fun i j hi hj hk hu => Inv.exclusive_of hinv hi hj hk hu) hinv.scheduled_le
    fun i hi => mem_nextBus_window hinv (List.mem_of_mem_take hi)

end StateUpdate

end Procsim
