import Mathlib.Data.Fintype.Card
import Mathlib.Order.Basic

/-! A set of places that is replaced by age: every access puts the time on a place, and what is not
    found takes the place with the oldest time.

    What was accessed stays until there were as many other keys as there are places. -/

namespace Lru

structure Line (κ τ : Type*) where
  key : κ
  stamp : τ

variable {ι κ τ : Type*}

/-- An access to `w` at the time `t`. -/
inductive Touch [DecidableEq ι] [LE τ] (c : ι → Line κ τ) (t : τ) (w : κ) : (ι → Line κ τ) → Prop
  | hit {k : ι} : (c k).key = w → Touch c t w (Function.update c k ⟨w, t⟩)
  | miss {k : ι} : (∀ j, (c j).key ≠ w) → (∀ j, (c k).stamp ≤ (c j).stamp) →
      Touch c t w (Function.update c k ⟨w, t⟩)

variable [LinearOrder τ]

/-- No key but `unused` is at two places. -/
def Distinct (unused : κ) (c : ι → Line κ τ) : Prop :=
  ∀ i j, (c i).key = (c j).key → (c i).key ≠ unused → i = j

/-- No place has the time `t` yet. -/
def Before (t : τ) (c : ι → Line κ τ) : Prop := ∀ j, (c j).stamp < t

/-- The search for an oldest place. -/
theorem foldl_le (f : ι → τ) (l : List ι) (a : ι) : ∀ j ∈ a :: l,
    f (l.foldl (fun m i => if f i < f m then i else m) a) ≤ f j := by
  induction l generalizing a with
  | nil => simp
  | cons i l ih =>
    intro j hj
    rw [List.foldl_cons]
    by_cases h : f i < f a
    · rw [if_pos h]
      rcases List.mem_cons.mp hj with rfl | hj
      · exact (ih i i List.mem_cons_self).trans h.le
      · exact ih i j hj
    · rw [if_neg h]
      rcases List.mem_cons.mp hj with rfl | hj
      · exact ih j j List.mem_cons_self
      · rcases List.mem_cons.mp hj with rfl | hj
        · exact (ih a a List.mem_cons_self).trans (not_lt.mp h)
        · exact ih a j (List.mem_cons_of_mem _ hj)

/-- Nothing but the keys `W` was accessed since `x`, at the time `s`. -/
structure Recent (x : κ) (s : τ) (W : Finset κ) (c : ι → Line κ τ) : Prop where
  held : ∃ k, c k = ⟨x, s⟩
  newer : ∀ j, s ≤ (c j).stamp → (c j).key ∈ W

variable {c c' : ι → Line κ τ} {unused w x : κ} {s t t' : τ} {W : Finset κ}

/-- The place that is accessed, and that no other place has the key. -/
theorem Touch.place [DecidableEq ι] (h : Touch c t w c') (hc : Distinct unused c)
    (hw : w ≠ unused) : ∃ k, c' = Function.update c k ⟨w, t⟩ ∧ ∀ j ≠ k, (c j).key ≠ w := by
  cases h with
  | @hit k hk =>
    refine ⟨k, rfl, fun j hj hjw => hj (hc j k (hjw.trans hk.symm) ?_)⟩
    rw [hjw]
    exact hw
  | @miss k hmiss _ => exact ⟨k, rfl, fun j _ => hmiss j⟩

theorem Touch.distinct [DecidableEq ι] (h : Touch c t w c') (hc : Distinct unused c)
    (hw : w ≠ unused) : Distinct unused c' := by
  obtain ⟨k, rfl, hk⟩ := h.place hc hw
  intro i j hij hi
  rcases eq_or_ne i k with rfl | hik <;> rcases eq_or_ne j i with rfl | hji
  · rfl
  · rw [Function.update_self, Function.update_of_ne hji] at hij
    exact absurd hij.symm (hk j hji)
  · rfl
  · rw [Function.update_of_ne hik] at hij hi
    rcases eq_or_ne j k with rfl | hjk
    · rw [Function.update_self] at hij
      exact absurd hij (hk i hik)
    · rw [Function.update_of_ne hjk] at hij
      exact hc i j hij hi

theorem Touch.update_eq [DecidableEq ι] (h : Touch c t w c') :
    ∃ k, c' = Function.update c k ⟨w, t⟩ := by
  cases h <;> exact ⟨_, rfl⟩

theorem Touch.before [DecidableEq ι] (h : Touch c t w c') (hc : Before t' c) (ht : t < t') :
    Before t' c' := by
  obtain ⟨k, rfl⟩ := h.update_eq
  intro j
  rcases eq_or_ne j k with rfl | hj
  · simpa using ht
  · rw [Function.update_of_ne hj]
    exact hc j

theorem Before.mono (hc : Before t c) (ht : t ≤ t') : Before t' c :=
  fun j => (hc j).trans_le ht

/-- Right after an access nothing is newer. -/
theorem Recent.start [DecidableEq ι] (hc : Before t c) (h : Touch c t x c') :
    Recent x t {x} c' := by
  obtain ⟨k, rfl⟩ := h.update_eq
  refine ⟨⟨k, Function.update_self ..⟩, fun j hj => ?_⟩
  rcases eq_or_ne j k with rfl | hjk
  · simp
  · rw [Function.update_of_ne hjk] at hj
    exact absurd (hc j) (not_lt_of_ge hj)

theorem Recent.mono {W' : Finset κ} (hx : Recent x s W c) (hW : W ⊆ W') : Recent x s W' c :=
  ⟨hx.held, fun j hj => hW (hx.newer j hj)⟩

/-- The place of the oldest is that of a key accessed since `x` only when these fill all places. -/
theorem Recent.card_le [Fintype ι] [DecidableEq κ] (hc : Distinct unused c)
    (hx : Recent x s W c) (hW : unused ∉ W) (hmiss : ∀ j, (c j).key ≠ w)
    (hold : ∀ j, s ≤ (c j).stamp) :
    Fintype.card ι ≤ (W.erase w).card := by
  rw [← Finset.card_univ]
  refine Finset.card_le_card_of_injOn (fun j => (c j).key) (fun j _ => ?_) (fun i _ j _ hij => ?_)
  · exact Finset.mem_coe.mpr (Finset.mem_erase.mpr ⟨hmiss j, hx.newer j (hold j)⟩)
  · refine hc i j hij fun hunused => hW ?_
    rw [← hunused]
    exact hx.newer i (hold i)

/-- Keys that fit, `x` among them, do not drive it out. -/
theorem Recent.touch [Fintype ι] [DecidableEq ι] [DecidableEq κ] (hc : Distinct unused c)
    (hbefore : Before t c) (h : Touch c t w c') (hx : Recent x s W c) (hW : unused ∉ W)
    (hcard : (insert w W).card ≤ Fintype.card ι) : ∃ s', Recent x s' (insert w W) c' := by
  by_cases hwx : w = x
  · subst hwx
    have hstart := Recent.start hbefore h
    exact ⟨t, hstart.mono (by simp)⟩
  · obtain ⟨p, hp⟩ := hx.held
    -- the place of `x` is not the one that is accessed
    obtain ⟨k, rfl, hk⟩ : ∃ k, c' = Function.update c k ⟨w, t⟩ ∧ p ≠ k := by
      cases h with
      | @hit k hk =>
        refine ⟨k, rfl, ?_⟩
        rintro rfl
        rw [hp] at hk
        exact hwx hk.symm
      | @miss k hmiss hold =>
        refine ⟨k, rfl, ?_⟩
        rintro rfl
        rw [hp] at hold
        have hfull := hx.card_le hc hW hmiss hold
        have hsmall := Finset.card_erase_lt_of_mem (Finset.mem_insert_self w W)
        rw [Finset.erase_insert_eq_erase] at hsmall
        omega
    refine ⟨s, ⟨p, by rw [Function.update_of_ne hk, hp]⟩, fun j hj => ?_⟩
    rcases eq_or_ne j k with rfl | hjk
    · simp
    · rw [Function.update_of_ne hjk] at hj ⊢
      exact Finset.mem_insert_of_mem (hx.newer j hj)

end Lru
