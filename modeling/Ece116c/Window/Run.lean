import Ece116c.Window.Update
import Ece116c.Window.Issue
import Ece116c.Lib.Runs

/-! The front-end steps keep the invariant, so it holds along every run, and what a cycle does to
    the stamps of one instruction. -/

namespace Window
open Runs

namespace Timeline

variable {κ : Type*} {m : Machine κ} {w : Workload κ} {c : ℕ} {T : Timeline}

theorem Inv.start (m : Machine κ) (w : Workload κ) : Inv m w 0 start where
  scheduled_le := le_refl 0
  dispatched_le := le_refl 0
  fetched_le := Nat.zero_le _
  eof_all := nofun
  fetch_iff i := by simp only [Timeline.start]; omega
  disp_iff i := by simp only [Timeline.start]; omega
  sched_iff i := by simp only [Timeline.start]; omega
  fetch_le _ := le_refl 0
  disp_le _ := le_refl 0
  sched_le _ := le_refl 0
  exec_sched _ h := absurd rfl h
  exec_le _ := le_refl 0
  state_exec _ h := absurd rfl h
  state_le _ := le_refl 0
  deps _ h := absurd rfl h
  window_mem i := by simp only [Timeline.start, List.not_mem_nil, false_iff]; omega
  window_sorted := List.Pairwise.nil
  bus_mem i := by simp [Timeline.start]
  granted_mem i := by simp [Timeline.start]
  announced_mem i := by simp [Timeline.start]
  leaving_mem i := by simp [Timeline.start]
  leaving_nodup := List.nodup_nil
  order := List.Pairwise.nil
  kind_unit _ h := absurd rfl h
  exclusive _ _ _ h := absurd rfl h

/-- Entering the window: the next ages in order, stamped with the current cycle. -/
theorem Inv.enter (h : Inv m w c T) (hc : c ≠ 0) : Inv m w c (T.enter m c) := by
  have hroom := T.room_le m
  have hS := h.scheduled_le
  have hnew : ∀ i, T.scheduled < i → T.exec i = 0 ∧ T.state i = 0 := by
    intro i hi
    have he : T.exec i = 0 := by
      by_contra he
      have := h.exec_sched i he
      omega
    exact ⟨he, by by_contra hs; exact (h.state_exec i hs).1 he⟩
  have hsched : ∀ i, (T.enter m c).sched i =
      if T.scheduled < i ∧ i ≤ T.scheduled + T.room m then c else T.sched i := fun _ => rfl
  have hcount : (T.enter m c).scheduled = T.scheduled + T.room m := rfl
  refine ⟨⟨?_, h.dispatched_le, h.fetched_le, h.eof_all, h.fetch_iff, h.disp_iff, fun i => ?_,
    h.fetch_le, h.disp_le, fun i => ?_⟩, ⟨fun i hi => ?_, h.exec_le, h.state_exec, h.state_le,
    h.deps⟩, ⟨fun i => ?_, ?_, h.bus_mem, h.granted_mem, h.announced_mem, h.leaving_mem,
    h.leaving_nodup, h.order⟩,
    ⟨h.kind_unit, h.exclusive⟩⟩
  · change T.scheduled + T.room m ≤ T.dispatched
    omega
  · rw [hsched, hcount]
    have := h.sched_iff i
    split <;> omega
  · rw [hsched]
    have := h.sched_le i
    split <;> omega
  · have hx := h.exec_sched i hi
    rw [hsched, hcount, if_neg (by omega)]
    change 1 ≤ i ∧ _ ∧ T.sched i < T.exec i
    omega
  · change i ∈ T.window ++ List.range' (T.scheduled + 1) (T.room m) ↔
      (1 ≤ i ∧ i ≤ T.scheduled + T.room m) ∧ (T.state i = 0 ∨ c < T.state i + 2)
    rw [List.mem_append, h.window_mem, List.mem_range'_1]
    have := hnew i
    omega
  · refine List.pairwise_append.mpr ⟨h.window_sorted, List.pairwise_lt_range', fun i hi j hj => ?_⟩
    have := (h.window_mem i).mp hi
    have := List.mem_range'_1.mp hj
    omega

theorem Inv.dispatch (h : Inv m w c T) (hc : c ≠ 0) : Inv m w c (T.dispatch c) := by
  have hS := h.scheduled_le
  have hD := h.dispatched_le
  have hdisp : ∀ i, (T.dispatch c).disp i =
      if T.dispatched < i ∧ i ≤ T.fetched then c else T.disp i := fun _ => rfl
  have hcount : (T.dispatch c).dispatched = T.fetched := rfl
  refine ⟨⟨?_, le_refl T.fetched, h.fetched_le, h.eof_all, h.fetch_iff, fun i => ?_, h.sched_iff,
    h.fetch_le, fun i => ?_, h.sched_le⟩, ⟨h.exec_sched, h.exec_le, h.state_exec, h.state_le,
    h.deps⟩, ⟨h.window_mem, h.window_sorted, h.bus_mem, h.granted_mem, h.announced_mem,
    h.leaving_mem, h.leaving_nodup, h.order⟩, ⟨h.kind_unit, h.exclusive⟩⟩
  · change T.scheduled ≤ T.fetched
    omega
  · rw [hdisp, hcount]
    have := h.disp_iff i
    split <;> omega
  · rw [hdisp]
    have := h.disp_le i
    split <;> omega

theorem Inv.fetchNext (h : Inv m w c T) (hc : c ≠ 0) : Inv m w c (T.fetchNext m w c) := by
  have hD := h.dispatched_le
  have hF := h.fetched_le
  have hn : T.fetchCount m w ≤ w.size - T.fetched := by
    rw [fetchCount]; split <;> omega
  have hfetch : ∀ i, (T.fetchNext m w c).fetch i =
      if T.fetched < i ∧ i ≤ T.fetched + T.fetchCount m w then c else T.fetch i := fun _ => rfl
  have hcount : (T.fetchNext m w c).fetched = T.fetched + T.fetchCount m w := rfl
  refine ⟨⟨h.scheduled_le, ?_, ?_, fun he => ?_, fun i => ?_, h.disp_iff, h.sched_iff,
    fun i => ?_, h.disp_le, h.sched_le⟩, ⟨h.exec_sched, h.exec_le, h.state_exec, h.state_le,
    h.deps⟩, ⟨h.window_mem, h.window_sorted, h.bus_mem, h.granted_mem, h.announced_mem,
    h.leaving_mem, h.leaving_nodup, h.order⟩, ⟨h.kind_unit, h.exclusive⟩⟩
  · change T.dispatched ≤ T.fetched + T.fetchCount m w
    omega
  · rw [hcount]; omega
  · rw [hcount, fetchCount]
    have hcase : T.eof = true ∨ (T.eof = false ∧ w.size < T.fetched + m.width) := by
      cases hT : T.eof
      · refine Or.inr ⟨rfl, ?_⟩
        simpa [Timeline.fetchNext, hT] using he
      · exact Or.inl rfl
    rcases hcase with hT | ⟨hT, hlt⟩
    · rw [hT, if_pos rfl]; exact h.eof_all hT
    · rw [hT, if_neg (by decide)]; omega
  · rw [hfetch, hcount]
    have := h.fetch_iff i
    split <;> omega
  · rw [hfetch]
    have := h.fetch_le i
    split <;> omega

theorem Inv.count (h : Inv m w c T) : Inv m w c T.count :=
  ⟨⟨h.scheduled_le, h.dispatched_le, h.fetched_le, h.eof_all, h.fetch_iff, h.disp_iff,
    h.sched_iff, h.fetch_le, h.disp_le, h.sched_le⟩, ⟨h.exec_sched, h.exec_le, h.state_exec,
    h.state_le, h.deps⟩, ⟨h.window_mem, h.window_sorted, h.bus_mem, h.granted_mem,
    h.announced_mem, h.leaving_mem, h.leaving_nodup, h.order⟩, ⟨h.kind_unit, h.exclusive⟩⟩

/-! ### The points of a cycle -/

section Points

variable [DecidableEq κ] (m) (w) (c)

/-- The timeline after each step of cycle `c + 1`. -/
def updatedAt : Timeline := (run m w c).update m (c + 1)
def issuedAt : Timeline := (updatedAt m w c).issue m w (c + 1)
def enteredAt : Timeline := (issuedAt m w c).enter m (c + 1)
def dispatchedAt : Timeline := (enteredAt m w c).dispatch (c + 1)
def fetchedAt : Timeline := (dispatchedAt m w c).fetchNext m w (c + 1)

variable {c}

theorem Inv.cycle (h : Inv m w c (run m w c)) :
    Inv m w (c + 1) (updatedAt m w c) ∧ Inv m w (c + 1) (issuedAt m w c) ∧
      Inv m w (c + 1) (enteredAt m w c) ∧ Inv m w (c + 1) (dispatchedAt m w c) ∧
        Inv m w (c + 1) (fetchedAt m w c) ∧ Inv m w (c + 1) (run m w (c + 1)) := by
  have hu := h.update
  have hi : Inv m w (c + 1) (issuedAt m w c) :=
    hu.issue fun i => Nat.lt_succ_of_le (h.sched_le i)
  have he := hi.enter (Nat.succ_ne_zero c)
  have hd := he.dispatch (Nat.succ_ne_zero c)
  have hf := hd.fetchNext (Nat.succ_ne_zero c)
  exact ⟨hu, hi, he, hd, hf, hf.count⟩

/-- The invariant holds at the end of every cycle. -/
theorem run_inv (c : ℕ) : Inv m w c (run m w c) := by
  induction c with
  | zero => exact Inv.start m w
  | succ c ih => exact (Inv.cycle m w ih).2.2.2.2.2

variable (c)

theorem updatedAt_inv : Inv m w (c + 1) (updatedAt m w c) := (Inv.cycle m w (run_inv m w c)).1
theorem issuedAt_inv : Inv m w (c + 1) (issuedAt m w c) := (Inv.cycle m w (run_inv m w c)).2.1
theorem enteredAt_inv : Inv m w (c + 1) (enteredAt m w c) :=
  (Inv.cycle m w (run_inv m w c)).2.2.1
theorem dispatchedAt_inv : Inv m w (c + 1) (dispatchedAt m w c) :=
  (Inv.cycle m w (run_inv m w c)).2.2.2.1
theorem fetchedAt_inv : Inv m w (c + 1) (fetchedAt m w c) :=
  (Inv.cycle m w (run_inv m w c)).2.2.2.2.1

/-! ### What the end of a cycle shows of its steps -/

@[simp] theorem run_succ_state : (run m w (c + 1)).state = (updatedAt m w c).state :=
  issue_state m w (c + 1) (updatedAt m w c)

@[simp] theorem run_succ_exec : (run m w (c + 1)).exec = (issuedAt m w c).exec := rfl

@[simp] theorem run_succ_unit : (run m w (c + 1)).unit = (issuedAt m w c).unit := rfl

@[simp] theorem run_succ_bus : (run m w (c + 1)).bus = (run m w c).nextBus m :=
  issue_bus m w (c + 1) (updatedAt m w c)

@[simp] theorem run_succ_announced : (run m w (c + 1)).announced =
    (run m w c).announced ++ (run m w c).bus.take m.buses :=
  issue_announced m w (c + 1) (updatedAt m w c)

theorem run_succ_fetched : (run m w (c + 1)).fetched =
    (run m w c).fetched + (dispatchedAt m w c).fetchCount m w :=
  congrArg (· + _) (issue_fetched m w (c + 1) (updatedAt m w c))

theorem run_succ_dispatched : (run m w (c + 1)).dispatched = (run m w c).fetched :=
  issue_fetched m w (c + 1) (updatedAt m w c)

theorem run_succ_scheduled : (run m w (c + 1)).scheduled =
    (run m w c).scheduled + (issuedAt m w c).room m :=
  congrArg (· + _) (issue_scheduled m w (c + 1) (updatedAt m w c))

theorem run_succ_fetch (i : ℕ) : (run m w (c + 1)).fetch i =
    if (run m w c).fetched < i ∧ i ≤ (run m w (c + 1)).fetched then c + 1
    else (run m w c).fetch i := by
  have hf : (dispatchedAt m w c).fetch = (run m w c).fetch :=
    issue_fetch m w (c + 1) (updatedAt m w c)
  have hn : (dispatchedAt m w c).fetched = (run m w c).fetched :=
    issue_fetched m w (c + 1) (updatedAt m w c)
  change stampFrom (dispatchedAt m w c).fetch (dispatchedAt m w c).fetched
    ((dispatchedAt m w c).fetchCount m w) (c + 1) i = _
  rw [stampFrom, hf, hn, run_succ_fetched]

theorem run_succ_disp (i : ℕ) : (run m w (c + 1)).disp i =
    if (run m w c).dispatched < i ∧ i ≤ (run m w (c + 1)).dispatched then c + 1
    else (run m w c).disp i := by
  have hd : (enteredAt m w c).disp = (run m w c).disp :=
    issue_disp m w (c + 1) (updatedAt m w c)
  have hn : (enteredAt m w c).dispatched = (run m w c).dispatched :=
    issue_dispatched m w (c + 1) (updatedAt m w c)
  have hf : (enteredAt m w c).fetched = (run m w c).fetched :=
    issue_fetched m w (c + 1) (updatedAt m w c)
  change (if (enteredAt m w c).dispatched < i ∧ i ≤ (enteredAt m w c).fetched then c + 1
    else (enteredAt m w c).disp i) = _
  rw [hd, hn, hf, run_succ_dispatched]

@[simp] theorem run_succ_sched (i : ℕ) : (run m w (c + 1)).sched i =
    if (run m w c).scheduled < i ∧ i ≤ (run m w (c + 1)).scheduled then c + 1
    else (run m w c).sched i := by
  have hs : (issuedAt m w c).sched = (run m w c).sched :=
    issue_sched m w (c + 1) (updatedAt m w c)
  have hn : (issuedAt m w c).scheduled = (run m w c).scheduled :=
    issue_scheduled m w (c + 1) (updatedAt m w c)
  have : (run m w (c + 1)).sched i = if (issuedAt m w c).scheduled < i ∧
      i ≤ (run m w (c + 1)).scheduled then c + 1 else (issuedAt m w c).sched i := rfl
  rw [this, hs, hn]

/-- A cycle either leaves the start of an instruction, or starts it now. -/
theorem run_succ_exec_cases (i : ℕ) :
    (run m w (c + 1)).exec i = (run m w c).exec i ∨
      ((run m w c).exec i = 0 ∧ i ∈ (updatedAt m w c).window ∧ (updatedAt m w c).Ready w i ∧
        (run m w (c + 1)).exec i = c + 1) :=
  foldl_issueOne_exec i (updatedAt m w c).window (updatedAt m w c)

/-- A cycle either leaves the bus stamp of an instruction, or it is granted a bus now. -/
theorem run_succ_state_cases (i : ℕ) :
    ((run m w (c + 1)).state i = (run m w c).state i ∧
        i ∉ ((run m w c).nextBus m).take m.buses) ∨
      ((run m w c).state i = 0 ∧ (run m w c).exec i ≠ 0 ∧
        i ∈ ((run m w c).nextBus m).take m.buses ∧ (run m w (c + 1)).state i = c + 1) := by
  rw [run_succ_state]
  rcases (run_inv m w c).update_state_cases i with ⟨h1, h2, h3, h4⟩ | ⟨h1, h2⟩
  · exact Or.inr ⟨h2, h3, h1, h4⟩
  · exact Or.inl ⟨h2, h1⟩

/-! ### The stamps of one instruction along the run -/

variable (i : ℕ)

theorem fetch_stamp : IsStamp fun c => (run m w c).fetch i :=
  .of_counter rfl (fun c => run_succ_fetch m w c i) fun c h0 =>
    (((run_inv m w c).fetch_iff i).mp h0).2

theorem disp_stamp : IsStamp fun c => (run m w c).disp i :=
  .of_counter rfl (fun c => run_succ_disp m w c i) fun c h0 =>
    (((run_inv m w c).disp_iff i).mp h0).2

theorem sched_stamp : IsStamp fun c => (run m w c).sched i :=
  .of_counter rfl (fun c => run_succ_sched m w c i) fun c h0 =>
    (((run_inv m w c).sched_iff i).mp h0).2

theorem exec_stamp : IsStamp fun c => (run m w c).exec i where
  zero := rfl
  step c := (run_succ_exec_cases m w c i).imp id fun h => ⟨h.1, h.2.2.2⟩

theorem state_stamp : IsStamp fun c => (run m w c).state i where
  zero := rfl
  step c := by
    rcases run_succ_state_cases m w c i with ⟨h, -⟩ | ⟨h0, -, -, h⟩
    · exact Or.inl h
    · exact Or.inr ⟨h0, h⟩

variable {i c}

/-- The start of an instruction is settled once and for all. -/
theorem run_exec_stable (h : (run m w c).exec i ≠ 0) {d : ℕ} (hd : c ≤ d) :
    (run m w d).exec i = (run m w c).exec i := (exec_stamp m w i).stable h hd

/-- So is its unit. -/
theorem run_unit_stable (h : (run m w c).exec i ≠ 0) {d : ℕ} (hd : c ≤ d) :
    (run m w d).unit i = (run m w c).unit i := by
  induction d, hd using Nat.le_induction with
  | base => rfl
  | succ d hd ih =>
    have he : (updatedAt m w d).exec i ≠ 0 := by
      change (run m w d).exec i ≠ 0
      rw [run_exec_stable m w h hd]; exact h
    exact (foldl_issueOne_unit (updatedAt m w d).window (updatedAt m w d) he).trans ih

/-- And its bus cycle. -/
theorem run_state_stable (h : (run m w c).state i ≠ 0) {d : ℕ} (hd : c ≤ d) :
    (run m w d).state i = (run m w c).state i := (state_stamp m w i).stable h hd

end Points

end Timeline

end Window
