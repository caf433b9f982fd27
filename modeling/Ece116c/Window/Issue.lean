import Ece116c.Window.Invariant

/-! The issue step: one instruction takes one free unit, and the scan of the window repeats this.

    `issueOne_cases` is all an attempt can do. The scan only ever takes units, so once no unit of a
    kind is free it stays so, and nobody younger of that kind starts behind a ready instruction
    that was left waiting. -/

namespace Window
open Lists

namespace Timeline

variable {κ : Type*} [DecidableEq κ] {m : Machine κ} {w : Workload κ} {c : ℕ} {T : Timeline}

/-- Every unit of kind `t` is held by an instruction of the window. -/
def Full (m : Machine κ) (w : Workload κ) (T : Timeline) (t : κ) : Prop :=
  ∀ j < m.units t, ∃ i ∈ T.window, T.Held i ∧ w.kind i = some t ∧ T.unit i = j

theorem freeUnit?_eq_none {t : κ} : T.freeUnit? m w t = none ↔ T.Full m w t := by
  simp only [freeUnit?, List.find?_eq_none, List.mem_range, Bool.not_eq_true, Bool.not_eq_false',
    List.any_eq_true, decide_eq_true_eq, Full]

theorem freeUnit?_some {t : κ} {j : ℕ} (h : T.freeUnit? m w t = some j) :
    j < m.units t ∧ ∀ i ∈ T.window, T.Held i → w.kind i = some t → T.unit i ≠ j := by
  have hp := List.find?_some h
  have hj := List.mem_of_find?_eq_some h
  refine ⟨List.mem_range.mp hj, fun i hi hh hk hu => ?_⟩
  simp only [Bool.not_eq_true', List.any_eq_false, decide_eq_true_eq, not_and] at hp
  exact hp i hi hh hk hu

/-- An attempt to start `i` leaves everything, and says why, or starts it on a free unit. -/
theorem issueOne_cases (m : Machine κ) (w : Workload κ) (c : ℕ) (T : Timeline) (i : ℕ) :
    (T.issueOne m w c i = T ∧
      (T.exec i ≠ 0 ∨ ¬ T.Ready w i ∨ w.kind i = none ∨
        ∃ t, w.kind i = some t ∧ T.Full m w t)) ∨
    ∃ t j, T.exec i = 0 ∧ T.Ready w i ∧ w.kind i = some t ∧ T.freeUnit? m w t = some j ∧
      T.issueOne m w c i = T.fire c i j := by
  rw [issueOne]
  by_cases hb : T.exec i ≠ 0 ∨ ¬ T.Ready w i
  · rw [if_pos hb]
    exact Or.inl ⟨rfl, by tauto⟩
  · rw [if_neg hb]
    have hr : T.exec i = 0 ∧ T.Ready w i := by tauto
    cases hk : w.kind i with
    | none => exact Or.inl ⟨rfl, by simp⟩
    | some t =>
      cases hf : T.freeUnit? m w t with
      | none =>
        exact Or.inl ⟨by simp only [hf], Or.inr (Or.inr (Or.inr ⟨t, rfl, freeUnit?_eq_none.mp hf⟩))⟩
      | some j => exact Or.inr ⟨t, j, hr.1, hr.2, rfl, hf, by simp only [hf]⟩

section Fire

variable {i j : ℕ}

@[simp] theorem fire_state : (T.fire c i j).state = T.state := rfl
@[simp] theorem fire_sched : (T.fire c i j).sched = T.sched := rfl
@[simp] theorem fire_window : (T.fire c i j).window = T.window := rfl
@[simp] theorem fire_announced : (T.fire c i j).announced = T.announced := rfl
@[simp] theorem fire_scheduled : (T.fire c i j).scheduled = T.scheduled := rfl

@[simp] theorem fire_exec_self : (T.fire c i j).exec i = c := Function.update_self ..

theorem fire_exec_of_ne {a : ℕ} (h : a ≠ i) : (T.fire c i j).exec a = T.exec a :=
  Function.update_of_ne h ..

@[simp] theorem fire_unit_self : (T.fire c i j).unit i = j := Function.update_self ..

theorem fire_unit_of_ne {a : ℕ} (h : a ≠ i) : (T.fire c i j).unit a = T.unit a :=
  Function.update_of_ne h ..

theorem fire_exec_of_pos {a : ℕ} (hi : T.exec i = 0) (ha : T.exec a ≠ 0) :
    (T.fire c i j).exec a = T.exec a :=
  fire_exec_of_ne (by rintro rfl; exact ha hi)

theorem fire_exec_cases (c : ℕ) (T : Timeline) (i j a : ℕ) : (a = i ∧ (T.fire c i j).exec a = c) ∨
    (a ≠ i ∧ (T.fire c i j).exec a = T.exec a) := by
  by_cases ha : a = i
  · subst ha; exact Or.inl ⟨rfl, fire_exec_self⟩
  · exact Or.inr ⟨ha, fire_exec_of_ne ha⟩

end Fire

section FireInv

variable {i j : ℕ} (h : Inv m w c T)

include h

omit [DecidableEq κ] in
theorem Inv.fire_stages (hi : i ∈ T.window) (hc : T.sched i < c) (he : T.exec i = 0)
    (hr : T.Ready w i) : Stages w c (T.fire c i j) where
  exec_sched := by
    intro a ha
    rcases fire_exec_cases c T i j a with ⟨rfl, hx⟩ | ⟨-, hx⟩
    · have hin := (h.window_mem a).mp hi
      rw [hx]; exact ⟨hin.1.1, hin.1.2, hc⟩
    · rw [hx] at ha ⊢; exact h.exec_sched a ha
  exec_le := by
    intro a
    have := h.exec_le a
    rcases fire_exec_cases c T i j a with ⟨-, hx⟩ | ⟨-, hx⟩ <;> exact hx.trans_le (by omega)
  state_exec := by
    intro a ha
    have hst := h.state_exec a ha
    rw [fire_exec_of_pos he hst.1]; exact hst
  state_le := h.state_le
  deps := by
    intro a ha p hp
    rcases fire_exec_cases c T i j a with ⟨rfl, hx⟩ | ⟨-, hx⟩
    · rw [hx]; exact (h.announced_mem p).mp (hr p hp)
    · rw [hx] at ha ⊢; exact h.deps a ha p hp

omit [DecidableEq κ] in
/-- The bus holds starts of earlier cycles only. -/
theorem Inv.fire_places (he : T.exec i = 0) : Places m c (T.fire c i j) where
  window_mem := h.window_mem
  window_sorted := h.window_sorted
  bus_mem := by
    intro a
    change a ∈ T.bus ↔ _
    rw [h.bus_mem, fire_state]
    rcases fire_exec_cases c T i j a with ⟨rfl, hx⟩ | ⟨-, hx⟩
    · rw [hx]; omega
    · rw [hx]
  granted_mem := h.granted_mem
  announced_mem := h.announced_mem
  leaving_mem := h.leaving_mem
  leaving_nodup := h.leaving_nodup
  order := by
    have hpos : ∀ a ∈ T.announced ++ T.bus, T.exec a ≠ 0 := by
      intro a ha
      rcases List.mem_append.mp ha with ha | ha
      · exact (h.state_exec a ((h.announced_mem a).mp ha).1).1
      · exact ((h.bus_mem a).mp ha).1
    refine h.order.imp_of_mem fun {a b} ha hb hab => ?_
    rw [Before, fire_exec_of_pos he (hpos a ha), fire_exec_of_pos he (hpos b hb)]
    exact hab

/-- Whoever used the free unit before has its bus by now. -/
theorem Inv.free_of_past {t : κ} (hf : T.freeUnit? m w t = some j) {a : ℕ} (ha : T.exec a ≠ 0)
    (hk : w.kind a = some t) (hu : T.unit a = j) : T.state a ≠ 0 ∧ T.state a ≤ c := by
  refine ⟨fun hs => ?_, h.state_le a⟩
  have hx := h.exec_sched a ha
  have hwin := (h.window_mem a).mpr ⟨⟨hx.1, hx.2.1⟩, Or.inl hs⟩
  exact (freeUnit?_some hf).2 a hwin ⟨ha, hs⟩ hk hu

theorem Inv.fire_units {t : κ} (hk : w.kind i = some t) (hf : T.freeUnit? m w t = some j) :
    Units m w (T.fire c i j) where
  kind_unit := by
    intro a ha
    rcases fire_exec_cases c T i j a with ⟨rfl, -⟩ | ⟨hne, hx⟩
    · exact ⟨t, hk, by rw [fire_unit_self]; exact (freeUnit?_some hf).1⟩
    · rw [hx] at ha
      rw [fire_unit_of_ne hne]; exact h.kind_unit a ha
  exclusive := by
    intro a b hab ha hb hkab hu
    rw [fire_state]
    rcases fire_exec_cases c T i j a with ⟨rfl, hxa⟩ | ⟨hna, hxa⟩
    · rcases fire_exec_cases c T a j b with ⟨rfl, -⟩ | ⟨hnb, hxb⟩
      · exact absurd rfl hab
      · rw [fire_unit_self, fire_unit_of_ne hnb] at hu
        rw [hxb] at hb
        rw [hxa]
        exact Or.inr (h.free_of_past hf hb (hkab ▸ hk) hu.symm)
    · rcases fire_exec_cases c T i j b with ⟨rfl, hxb⟩ | ⟨hnb, hxb⟩
      · rw [fire_unit_self, fire_unit_of_ne hna] at hu
        rw [hxa] at ha
        rw [hxb]
        exact Or.inl (h.free_of_past hf ha (hkab.trans hk) hu)
      · rw [fire_unit_of_ne hna, fire_unit_of_ne hnb] at hu
        rw [hxa] at ha ⊢
        rw [hxb] at hb ⊢
        exact h.exclusive a b hab ha hb hkab hu

/-- Starting a ready instruction on a unit nobody holds keeps the invariant. -/
theorem Inv.fire {t : κ} (hi : i ∈ T.window) (hc : T.sched i < c) (he : T.exec i = 0)
    (hr : T.Ready w i) (hk : w.kind i = some t) (hf : T.freeUnit? m w t = some j) :
    Inv m w c (T.fire c i j) where
  toFront := ⟨h.scheduled_le, h.dispatched_le, h.fetched_le, h.eof_all, h.fetch_iff, h.disp_iff,
    h.sched_iff, h.fetch_le, h.disp_le, h.sched_le⟩
  toStages := h.fire_stages hi hc he hr
  toPlaces := h.fire_places he
  toUnits := h.fire_units hk hf

end FireInv

/-! ### The scan of the window -/

theorem issueOne_frame (i : ℕ) : ∃ e u f, T.issueOne m w c i =
    { T with exec := e, unit := u, fired := f } := by
  rcases issueOne_cases m w c T i with ⟨h, -⟩ | ⟨-, j, -, -, -, -, h⟩
  · exact ⟨T.exec, T.unit, T.fired, h⟩
  · exact ⟨_, _, _, h⟩

theorem foldl_issueOne_frame (l : List ℕ) (T : Timeline) : ∃ e u f,
    l.foldl (issueOne m w c) T = { T with exec := e, unit := u, fired := f } := by
  induction l generalizing T with
  | nil => exact ⟨T.exec, T.unit, T.fired, rfl⟩
  | cons i l ih =>
    obtain ⟨e, u, f, h⟩ := ih (T.issueOne m w c i)
    obtain ⟨e', u', f', h'⟩ := issueOne_frame (m := m) (w := w) (c := c) (T := T) i
    refine ⟨e, u, f, ?_⟩
    rw [List.foldl_cons, h, h']

section Frame

variable (m w c T)

theorem issue_frame : ∃ e u f, T.issue m w c = { T with exec := e, unit := u, fired := f } :=
  foldl_issueOne_frame T.window T

@[simp] theorem issueOne_window (i : ℕ) : (T.issueOne m w c i).window = T.window := by
  obtain ⟨_, _, _, h⟩ := issueOne_frame (m := m) (w := w) (c := c) (T := T) i; rw [h]
@[simp] theorem issueOne_state (i : ℕ) : (T.issueOne m w c i).state = T.state := by
  obtain ⟨_, _, _, h⟩ := issueOne_frame (m := m) (w := w) (c := c) (T := T) i; rw [h]
@[simp] theorem issueOne_announced (i : ℕ) : (T.issueOne m w c i).announced = T.announced := by
  obtain ⟨_, _, _, h⟩ := issueOne_frame (m := m) (w := w) (c := c) (T := T) i; rw [h]
@[simp] theorem issueOne_sched (i : ℕ) : (T.issueOne m w c i).sched = T.sched := by
  obtain ⟨_, _, _, h⟩ := issueOne_frame (m := m) (w := w) (c := c) (T := T) i; rw [h]
@[simp] theorem issue_fetched : (T.issue m w c).fetched = T.fetched := by
  obtain ⟨_, _, _, h⟩ := issue_frame m w c T; rw [h]
@[simp] theorem issue_dispatched : (T.issue m w c).dispatched = T.dispatched := by
  obtain ⟨_, _, _, h⟩ := issue_frame m w c T; rw [h]
@[simp] theorem issue_scheduled : (T.issue m w c).scheduled = T.scheduled := by
  obtain ⟨_, _, _, h⟩ := issue_frame m w c T; rw [h]
@[simp] theorem issue_eof : (T.issue m w c).eof = T.eof := by
  obtain ⟨_, _, _, h⟩ := issue_frame m w c T; rw [h]
@[simp] theorem issue_window : (T.issue m w c).window = T.window := by
  obtain ⟨_, _, _, h⟩ := issue_frame m w c T; rw [h]
@[simp] theorem issue_bus : (T.issue m w c).bus = T.bus := by
  obtain ⟨_, _, _, h⟩ := issue_frame m w c T; rw [h]
@[simp] theorem issue_announced : (T.issue m w c).announced = T.announced := by
  obtain ⟨_, _, _, h⟩ := issue_frame m w c T; rw [h]
@[simp] theorem issue_state : (T.issue m w c).state = T.state := by
  obtain ⟨_, _, _, h⟩ := issue_frame m w c T; rw [h]
@[simp] theorem issue_fetch : (T.issue m w c).fetch = T.fetch := by
  obtain ⟨_, _, _, h⟩ := issue_frame m w c T; rw [h]
@[simp] theorem issue_disp : (T.issue m w c).disp = T.disp := by
  obtain ⟨_, _, _, h⟩ := issue_frame m w c T; rw [h]
@[simp] theorem issue_sched : (T.issue m w c).sched = T.sched := by
  obtain ⟨_, _, _, h⟩ := issue_frame m w c T; rw [h]
@[simp] theorem issue_waitSum : (T.issue m w c).waitSum = T.waitSum := by
  obtain ⟨_, _, _, h⟩ := issue_frame m w c T; rw [h]
@[simp] theorem issue_waitMax : (T.issue m w c).waitMax = T.waitMax := by
  obtain ⟨_, _, _, h⟩ := issue_frame m w c T; rw [h]

end Frame

/-- An attempt for one instruction starts no other. -/
theorem issueOne_of_ne {i a : ℕ} (h : a ≠ i) :
    (T.issueOne m w c i).exec a = T.exec a ∧ (T.issueOne m w c i).unit a = T.unit a := by
  rcases issueOne_cases m w c T i with ⟨hT, -⟩ | ⟨t, j, -, -, -, -, hT⟩
  · rw [hT]
    exact ⟨rfl, rfl⟩
  · rw [hT]
    exact ⟨fire_exec_of_ne h, fire_unit_of_ne h⟩

/-- Whoever has started keeps its cycle and its unit. -/
theorem issueOne_keeps {i a : ℕ} (ha : T.exec a ≠ 0) :
    (T.issueOne m w c i).exec a = T.exec a ∧ (T.issueOne m w c i).unit a = T.unit a := by
  rcases issueOne_cases m w c T i with ⟨h, -⟩ | ⟨-, j, he, -, -, -, h⟩
  · rw [h]; exact ⟨rfl, rfl⟩
  · rw [h]
    have hne : a ≠ i := by rintro rfl; exact ha he
    exact ⟨fire_exec_of_ne hne, fire_unit_of_ne hne⟩

theorem Full.issueOne {t : κ} (h : T.Full m w t) (i : ℕ) : (T.issueOne m w c i).Full m w t := by
  intro j hj
  obtain ⟨a, ha, hh, hk, hu⟩ := h j hj
  obtain ⟨hexec, hunit⟩ := issueOne_keeps (m := m) (w := w) (c := c) (i := i) hh.1
  refine ⟨a, by rwa [issueOne_window], ⟨?_, ?_⟩, hk, by rw [hunit]; exact hu⟩
  · rw [hexec]; exact hh.1
  · rw [issueOne_state]; exact hh.2

/-- The scan changes the start of an instruction at most from "not yet" to `c`, and only if it was
    ready and scanned. -/
theorem foldl_issueOne_exec (a : ℕ) (l : List ℕ) (T : Timeline) :
    (l.foldl (issueOne m w c) T).exec a = T.exec a ∨
      (T.exec a = 0 ∧ a ∈ l ∧ T.Ready w a ∧ (l.foldl (issueOne m w c) T).exec a = c) := by
  induction l generalizing T with
  | nil => exact Or.inl rfl
  | cons i l ih =>
    rw [List.foldl_cons]
    have hrest := ih (T.issueOne m w c i)
    rcases issueOne_cases m w c T i with ⟨h, -⟩ | ⟨t, j, he, hr, -, -, h⟩
    · rw [h] at hrest ⊢
      rcases hrest with hx | ⟨h0, hm, hra, hx⟩
      · exact Or.inl hx
      · exact Or.inr ⟨h0, List.mem_cons_of_mem _ hm, hra, hx⟩
    · rw [h] at hrest ⊢
      by_cases ha : a = i
      · subst ha
        rw [fire_exec_self] at hrest
        refine Or.inr ⟨he, List.mem_cons_self .., hr, ?_⟩
        rcases hrest with hx | ⟨-, -, -, hx⟩ <;> exact hx
      · rw [fire_exec_of_ne ha] at hrest
        rcases hrest with hx | ⟨h0, hm, hra, hx⟩
        · exact Or.inl hx
        · exact Or.inr ⟨h0, List.mem_cons_of_mem _ hm, hra, hx⟩

theorem foldl_issueOne_unit {a : ℕ} (l : List ℕ) (T : Timeline) (ha : T.exec a ≠ 0) :
    (l.foldl (issueOne m w c) T).unit a = T.unit a := by
  induction l generalizing T with
  | nil => rfl
  | cons i l ih =>
    obtain ⟨hexec, hunit⟩ := issueOne_keeps (m := m) (w := w) (c := c) (i := i) ha
    rw [List.foldl_cons, ih _ (by rwa [hexec]), hunit]

theorem Full.foldl_issueOne {t : κ} (l : List ℕ) (T : Timeline) (h : T.Full m w t) :
    (l.foldl (Timeline.issueOne m w c) T).Full m w t := by
  induction l generalizing T with
  | nil => exact h
  | cons i l ih => exact ih _ (h.issueOne i)

/-- With every unit of its kind taken, nobody of that kind starts in the rest of the scan. -/
theorem Full.no_start {t : κ} {a : ℕ} (hk : w.kind a = some t) (l : List ℕ) (T : Timeline)
    (h : T.Full m w t) : (l.foldl (Timeline.issueOne m w c) T).exec a = T.exec a := by
  induction l generalizing T with
  | nil => rfl
  | cons i l ih =>
    rw [List.foldl_cons, ih _ (h.issueOne i)]
    rcases issueOne_cases m w c T i with ⟨hT, -⟩ | ⟨t', j, -, -, hk', hf, hT⟩
    · rw [hT]
    · rw [hT]
      refine fire_exec_of_ne ?_
      rintro rfl
      obtain rfl : t = t' := Option.some.inj (hk.symm.trans hk')
      rw [freeUnit?_eq_none.mpr h] at hf
      cases hf

theorem Inv.foldl_issueOne (hc : ∀ i, T.sched i < c) (l : List ℕ) (T' : Timeline)
    (hl : ∀ i ∈ l, i ∈ T'.window) (hs : T'.sched = T.sched) (h : Inv m w c T') :
    Inv m w c (l.foldl (Timeline.issueOne m w c) T') := by
  induction l generalizing T' with
  | nil => exact h
  | cons i l ih =>
    have hstep : Inv m w c (T'.issueOne m w c i) := by
      rcases issueOne_cases m w c T' i with ⟨hT, -⟩ | ⟨t, j, he, hr, hk, hf, hT⟩
      · rwa [hT]
      · rw [hT]
        exact h.fire (hl i (List.mem_cons_self ..)) (by rw [hs]; exact hc i) he hr hk hf
    refine ih _ (fun a ha => ?_) (by rw [issueOne_sched, hs]) hstep
    rw [issueOne_window]
    exact hl a (List.mem_cons_of_mem _ ha)

/-- The scan keeps the invariant when nobody entered the window in this cycle. -/
theorem Inv.issue (h : Inv m w c T) (hc : ∀ i, T.sched i < c) : Inv m w c (T.issue m w c) :=
  Inv.foldl_issueOne hc T.window T (fun _ hi => hi) rfl h

/-- A failed attempt for a ready instruction failed for want of a unit. -/
theorem issueOne_waiting (hc : c ≠ 0) {t : κ} {a : ℕ} (hk : w.kind a = some t)
    (hr : T.Ready w a) (h0 : (T.issueOne m w c a).exec a = 0) :
    T.issueOne m w c a = T ∧ T.Full m w t := by
  rcases issueOne_cases m w c T a with ⟨hT, hwhy⟩ | ⟨t', j, -, -, -, -, hT⟩
  · refine ⟨hT, ?_⟩
    rw [hT] at h0
    rcases hwhy with hx | hx | hx | ⟨t', hk', hx⟩
    · exact absurd h0 hx
    · exact absurd hr hx
    · rw [hk] at hx
      cases hx
    · obtain rfl : t = t' := Option.some.inj (hk.symm.trans hk')
      exact hx
  · rw [hT, fire_exec_self] at h0
    exact absurd h0 hc

/-- An attempt starts nobody else. -/
theorem issueOne_started {i b : ℕ} (h0 : T.exec b = 0) (h : (T.issueOne m w c i).exec b ≠ 0) :
    b = i := by
  rcases issueOne_cases m w c T i with ⟨hT, -⟩ | ⟨t', j, -, -, -, -, hT⟩
  · rw [hT] at h
    exact absurd h0 h
  · by_contra hne
    rw [hT, fire_exec_of_ne hne] at h
    exact h h0

/-- A ready instruction the scan of an age-ordered list leaves waiting has found every unit of its
    kind taken, and whoever of its kind started in the scan is older. -/
theorem foldl_issueOne_waiting (hc : c ≠ 0) {t : κ} {a : ℕ} (hk : w.kind a = some t) (l : List ℕ)
    (T : Timeline) (hl : l.Pairwise (· < ·)) (ha : a ∈ l) (hr : T.Ready w a)
    (h0 : (l.foldl (issueOne m w c) T).exec a = 0) :
    (l.foldl (issueOne m w c) T).Full m w t ∧
      ∀ b, w.kind b = some t → T.exec b = 0 →
        (l.foldl (issueOne m w c) T).exec b ≠ 0 → b < a := by
  induction l generalizing T with
  | nil => exact absurd ha List.not_mem_nil
  | cons i l ih =>
    rw [List.foldl_cons] at h0 ⊢
    have hl' := List.pairwise_cons.mp hl
    have h1 : (T.issueOne m w c i).exec a = 0 := by
      rcases foldl_issueOne_exec (m := m) (w := w) (c := c) a l (T.issueOne m w c i) with
        hx | ⟨hx, -⟩
      · rw [← hx]; exact h0
      · exact hx
    by_cases hia : a = i
    · -- the attempt for `a` itself failed, for want of a unit
      subst hia
      obtain ⟨hT, hfull⟩ := issueOne_waiting hc hk hr h1
      rw [hT]
      refine ⟨hfull.foldl_issueOne l T, fun b hb hb0 hb1 => ?_⟩
      rw [hfull.no_start hb l T] at hb1
      exact absurd hb0 hb1
    · have hal := (List.mem_cons.mp ha).resolve_left hia
      have hr' : (T.issueOne m w c i).Ready w a := by
        intro p hp
        rw [issueOne_announced]
        exact hr p hp
      obtain ⟨hfull, holder⟩ := ih _ hl'.2 hal hr' h0
      refine ⟨hfull, fun b hb hb0 hb1 => ?_⟩
      by_cases hb2 : (T.issueOne m w c i).exec b = 0
      · exact holder b hb hb2 hb1
      · -- `b` started in the first attempt, so it is the first of the list
        rw [issueOne_started hb0 hb2]
        exact hl'.1 a hal

end Timeline

end Window
