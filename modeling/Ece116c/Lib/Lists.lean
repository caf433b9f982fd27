import Mathlib.Data.List.Sort
import Mathlib.Data.List.Nodup
import Mathlib.Algebra.Ring.Nat

/-! Lists as the containers of an imperative program: the first element a search finds, changed or
    erased in place, and queues of which a prefix is served.

    The lemmas speak of a list `l.map g` of records built from a list `l` of distinct keys, and of a
    test `p` that only the record of key `t` can pass, such as a search by key. -/

namespace Lists

variable {α β : Type*}

/-- `*find_if(first, last, p) = f(*find_if(first, last, p))`, nothing when the search fails. -/
def updateFirst (p : β → Bool) (f : β → β) : List β → List β
  | [] => []
  | b :: l => if p b then f b :: l else b :: updateFirst p f l

section Keyed

variable [DecidableEq α] {g : α → β} {p : β → Bool} {t : α}

theorem updateFirst_map (f : β → β) (l : List α) (hp : ∀ a ∈ l, p (g a) = true → a = t)
    (hl : l.Nodup) :
    updateFirst p f (l.map g)
      = l.map (fun a => if a = t ∧ p (g t) = true then f (g a) else g a) := by
  induction l with
  | nil => rfl
  | cons a l ih =>
    have hnd := List.nodup_cons.mp hl
    have hp' : ∀ b ∈ l, p (g b) = true → b = t := fun b hb => hp b (List.mem_cons_of_mem _ hb)
    rw [List.map_cons, List.map_cons, updateFirst]
    by_cases h : p (g a) = true
    · have hat := hp a (List.mem_cons_self ..) h
      subst hat
      have hrest : l.map (fun b => if b = a ∧ p (g a) = true then f (g b) else g b) = l.map g := by
        refine List.map_congr_left fun b hb => ?_
        rw [if_neg]
        rintro ⟨rfl, -⟩
        exact hnd.1 hb
      rw [if_pos h, if_pos ⟨rfl, h⟩, hrest]
    · have hne : ¬ (a = t ∧ p (g t) = true) := by
        rintro ⟨rfl, h'⟩
        exact h h'
      rw [if_neg h, if_neg hne, ih hp' hnd.2]

theorem find?_map (l : List α) (hp : ∀ a ∈ l, p (g a) = true → a = t) :
    (l.map g).find? p = if t ∈ l ∧ p (g t) = true then some (g t) else none := by
  induction l with
  | nil => simp
  | cons a l ih =>
    have hp' : ∀ b ∈ l, p (g b) = true → b = t := fun b hb => hp b (List.mem_cons_of_mem _ hb)
    rw [List.map_cons]
    by_cases h : p (g a) = true
    · have hat := hp a (List.mem_cons_self ..) h
      subst hat
      rw [List.find?_cons_of_pos h, if_pos ⟨List.mem_cons_self .., h⟩]
    · rw [List.find?_cons_of_neg h, ih hp']
      refine if_congr ?_ rfl rfl
      rw [List.mem_cons]
      constructor
      · exact fun hh => ⟨Or.inr hh.1, hh.2⟩
      · rintro ⟨rfl | hh, h'⟩
        · exact absurd h' h
        · exact ⟨hh, h'⟩

theorem eraseP_map (ht : p (g t) = true) (l : List α) (hp : ∀ a ∈ l, p (g a) = true → a = t)
    (hl : l.Nodup) : (l.map g).eraseP p = (l.filter (fun a => a ≠ t)).map g := by
  induction l with
  | nil => rfl
  | cons a l ih =>
    have hnd := List.nodup_cons.mp hl
    have hp' : ∀ b ∈ l, p (g b) = true → b = t := fun b hb => hp b (List.mem_cons_of_mem _ hb)
    rw [List.map_cons]
    by_cases h : a = t
    · subst h
      have hrest : l.filter (fun b => b ≠ a) = l := by
        refine List.filter_eq_self.mpr fun b hb => ?_
        simpa using fun e : b = a => hnd.1 (e ▸ hb)
      rw [List.eraseP_cons_of_pos ht, List.filter_cons_of_neg (by simp), hrest]
    · have hpa : ¬ p (g a) = true := fun hh => h (hp a (List.mem_cons_self ..) hh)
      rw [List.eraseP_cons_of_neg hpa, List.filter_cons_of_pos (by simpa using h),
        List.map_cons, ih hp' hnd.2]

end Keyed

/-- The first index a test accepts, found by testing the indices. -/
theorem findIdx?_eq_find?_range {l : List β} {q : β → Bool} {p : ℕ → Bool}
    (h : ∀ j b, l[j]? = some b → q b = p j) :
    l.findIdx? q = (List.range l.length).find? p := by
  have hget : ∀ j (hj : j < l.length), q (l.get ⟨j, hj⟩) = p j := fun j hj =>
    h j _ (List.getElem?_eq_getElem hj)
  cases hf : (List.range l.length).find? p with
  | none =>
    rw [List.find?_eq_none] at hf
    rw [List.findIdx?_eq_none_iff]
    intro b hb
    obtain ⟨j, hj, rfl⟩ := List.getElem_of_mem hb
    simpa [← hget j hj] using hf j (List.mem_range.mpr hj)
  | some j =>
    rw [List.find?_range_eq_some] at hf
    obtain ⟨hp, hj, hbefore⟩ := hf
    have hj' := List.mem_range.mp hj
    rw [List.findIdx?_eq_some_iff_getElem]
    refine ⟨hj', (hget j hj').trans hp, fun i hi => ?_⟩
    have := hbefore i hi
    rw [← hget i (hi.trans hj')] at this
    simpa using this

/-! ### Served prefixes -/

theorem mem_drop_iff {l : List α} (h : l.Nodup) (n : ℕ) (a : α) :
    a ∈ l.drop n ↔ a ∈ l ∧ a ∉ l.take n := by
  have hsplit := List.take_append_drop n l
  have hd : (l.take n ++ l.drop n).Nodup := by rwa [hsplit]
  have hdis := (List.nodup_append.mp hd).2.2
  constructor
  · intro ha
    exact ⟨List.mem_of_mem_drop ha, fun ht => hdis a ht a ha rfl⟩
  · rintro ⟨ha, hnt⟩
    rw [← hsplit] at ha
    exact (List.mem_append.mp ha).resolve_left hnt

/-- A duplicate-free list that lists exactly the elements of `l` with `p` is as long as their
    number. -/
theorem countP_eq_length [DecidableEq α] {l m : List α} {p : α → Bool} (hl : l.Nodup)
    (hm : m.Nodup) (h : ∀ a, a ∈ m ↔ a ∈ l ∧ p a = true) : l.countP p = m.length := by
  have hperm : (l.filter p).Perm m :=
    (List.perm_ext_iff_of_nodup (hl.filter p) hm).mpr fun a => by rw [List.mem_filter, h a]
  rw [List.countP_eq_length_filter, hperm.length_eq]

/-- One more element passes the test. -/
theorem countP_succ [DecidableEq α] {p q : α → Bool} {a : α} (hp : p a = false)
    (hq : q a = true) (l : List α) (hl : l.Nodup) (ha : a ∈ l)
    (h : ∀ b ∈ l, b ≠ a → q b = p b) : l.countP q = l.countP p + 1 := by
  induction l with
  | nil => exact absurd ha List.not_mem_nil
  | cons b l ih =>
    have hnd := List.nodup_cons.mp hl
    by_cases hb : b = a
    · subst hb
      have hrest : l.countP q = l.countP p := by
        refine List.countP_congr fun x hx => ?_
        rw [h x (List.mem_cons_of_mem _ hx) (by rintro rfl; exact hnd.1 hx)]
      rw [List.countP_cons_of_pos hq, List.countP_cons_of_neg (by rw [hp]; decide), hrest]
    · have hmem := (List.mem_cons.mp ha).resolve_left (Ne.symm hb)
      have hrest := ih hnd.2 hmem fun x hx => h x (List.mem_cons_of_mem _ hx)
      rw [List.countP_cons, List.countP_cons, hrest, h b (List.mem_cons_self ..) hb]
      omega

/-- Some more elements pass the test. -/
theorem countP_lt {p q : α → Bool} {a : α} (hp : p a = false) (hq : q a = true) (l : List α)
    (ha : a ∈ l) (h : ∀ b ∈ l, p b = true → q b = true) : l.countP p < l.countP q := by
  induction l with
  | nil => exact absurd ha List.not_mem_nil
  | cons b l ih =>
    have hrest : l.countP p ≤ l.countP q :=
      List.countP_mono_left fun x hx => h x (List.mem_cons_of_mem _ hx)
    rw [List.countP_cons, List.countP_cons]
    rcases List.mem_cons.mp ha with rfl | ha
    · rw [hp, hq, if_neg (by decide), if_pos rfl]
      omega
    · have hlt := ih ha fun x hx => h x (List.mem_cons_of_mem _ hx)
      have hb := h b (List.mem_cons_self ..)
      by_cases hpb : p b = true
      · rw [if_pos hpb, if_pos (hb hpb)]
        omega
      · rw [if_neg hpb]
        omega

/-- Elements spread over `k` slots of at most `B` each are at most `k * B`. -/
theorem length_le_of_slots {f : α → ℕ} {a k B : ℕ} {l : List α}
    (hf : ∀ x ∈ l, a ≤ f x ∧ f x < a + k)
    (hB : ∀ c, a ≤ c → l.countP (fun x => decide (f x = c)) ≤ B) : l.length ≤ k * B := by
  induction k generalizing l with
  | zero =>
    have hnil : l = [] := List.eq_nil_iff_forall_not_mem.mpr fun x hx => by
      have := hf x hx
      omega
    rw [hnil]
    exact Nat.zero_le _
  | succ k ih =>
    -- the last slot, and the others
    have hrest : (l.filter fun x => !decide (f x = a + k)).length ≤ k * B := by
      refine ih (fun x hx => ?_) fun c hc => ?_
      · have hne : f x ≠ a + k := by simpa using (List.mem_filter.mp hx).2
        have := hf x (List.mem_of_mem_filter hx)
        omega
      · exact (List.filter_sublist.countP_le).trans (hB c hc)
    have hlast := hB (a + k) (Nat.le_add_right a k)
    have hsplit := List.length_eq_countP_add_countP (fun x => decide (f x = a + k)) (l := l)
    rw [← List.countP_eq_length_filter] at hrest
    rw [Nat.succ_mul]
    simp only [Bool.not_eq_true, Bool.decide_eq_false] at hsplit
    omega

/-- Of the spans `[lo, hi)`, cut off at `c`, the next step adds those around `c`. -/
theorem sum_spans_succ (lo hi : α → ℕ) (c : ℕ) (l : List α) :
    (l.map fun a => min (c + 1) (hi a) - lo a).sum =
      (l.map fun a => min c (hi a) - lo a).sum +
        l.countP fun a => decide (lo a ≤ c ∧ c < hi a) := by
  induction l with
  | nil => rfl
  | cons a l ih =>
    rw [List.map_cons, List.map_cons, List.sum_cons, List.sum_cons, List.countP_cons, ih]
    by_cases h : lo a ≤ c ∧ c < hi a
    · rw [if_pos (decide_eq_true h)]
      omega
    · rw [if_neg (by simpa using h)]
      omega

end Lists
