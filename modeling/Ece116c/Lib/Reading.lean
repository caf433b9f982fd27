import Mathlib.Data.List.Forall2
import Mathlib.Data.Nat.Notation

/-! Loops that call a reader until it is at the end.

    A run is the list of what the calls put out. The relation `Yields` is what the proofs go by, one
    rule for each way a call can go on; `loop_iff` leads back to the loop that is executed. -/

namespace Reading

/-- One call: a failed assertion, the end of the input, or an output and the state after it. -/
inductive Outcome (α ρ : Type*) where
  | failed
  | ended
  | next (out : α) (state : ρ)

variable {α β ρ δ ω : Type*} {f : ρ → Outcome α ρ} {g : δ → Outcome β δ} {r : ρ} {d : δ}
  {l l' : List α}

/-- The loop, with a bound on the number of calls. -/
def loop (f : ρ → Outcome α ρ) : ℕ → ρ → Option (List α)
  | 0, _ => none
  | n + 1, r =>
    match f r with
    | .failed => none
    | .ended => some []
    | .next a r' => (loop f n r').map (a :: ·)

/-- The calls from `r` on put out `l` and come to the end. -/
inductive Yields (f : ρ → Outcome α ρ) : ρ → List α → Prop
  | ended {r : ρ} : f r = .ended → Yields f r []
  | next {r r' : ρ} {a : α} {l : List α} :
      f r = .next a r' → Yields f r' l → Yields f r (a :: l)

/-- The output taken to `h` of it and the state to `v` of it. -/
def Outcome.map (h : α → β) (v : ρ → δ) : Outcome α ρ → Outcome β δ
  | .failed => .failed
  | .ended => .ended
  | .next a r => .next (h a) (v r)

/-- A reader that goes on where another has stopped. -/
def Outcome.andThen (o : Outcome α ρ) (k : α → ρ → Outcome β ρ) : Outcome β ρ :=
  match o with
  | .failed => .failed
  | .ended => .ended
  | .next a r => k a r

theorem Outcome.andThen_eq_next {o : Outcome α ρ} {k : α → ρ → Outcome β ρ} {b : β} :
    o.andThen k = .next b r ↔ ∃ a r', o = .next a r' ∧ k a r' = .next b r := by
  cases o with
  | failed => exact ⟨nofun, fun ⟨_, _, h, _⟩ => nomatch h⟩
  | ended => exact ⟨nofun, fun ⟨_, _, h, _⟩ => nomatch h⟩
  | next a r' =>
    refine ⟨fun h => ⟨a, r', rfl, h⟩, ?_⟩
    rintro ⟨_, _, h, hk⟩
    cases h
    exact hk

/-- A reader that does on its states what another does on what is seen of them runs like it. -/
theorem loop_map {h : β → α} {v : ρ → δ} (hv : ∀ r, (f r).map id v = (g (v r)).map h id) (n : ℕ)
    (r : ρ) : loop f n r = (loop g n (v r)).map (List.map h) := by
  induction n generalizing r with
  | zero => rfl
  | succ n ih =>
    have hr := hv r
    cases hg : g (v r) with
    | failed => cases hf : f r <;> rw [hf, hg] at hr <;> cases hr; simp [loop, hf, hg]
    | ended => cases hf : f r <;> rw [hf, hg] at hr <;> cases hr; simp [loop, hf, hg]
    | next b d =>
      cases hf : f r <;> rw [hf, hg] at hr <;> cases hr
      simp [loop, hf, hg, ih, Function.comp_def]

/-! ### The loop runs to the end -/

theorem yields_of_loop {n : ℕ} (h : loop f n r = some l) : Yields f r l := by
  induction n generalizing r l with
  | zero => cases h
  | succ n ih =>
    rw [loop] at h
    cases hf : f r with
    | failed => simp [hf] at h
    | ended =>
      simp only [hf, Option.some.injEq] at h
      subst h
      exact .ended hf
    | next a r' =>
      simp only [hf, Option.map_eq_some_iff] at h
      obtain ⟨l', hl', rfl⟩ := h
      exact .next hf (ih hl')

theorem Yields.loop_eq (h : Yields f r l) {n : ℕ} (hn : l.length < n) : loop f n r = some l := by
  induction h generalizing n with
  | ended hf =>
    cases n with
    | zero => simp at hn
    | succ n => simp [loop, hf]
  | next hf _ ih =>
    cases n with
    | zero => simp at hn
    | succ n =>
      rw [List.length_cons] at hn
      simp [loop, hf, ih (Nat.lt_of_succ_lt_succ hn)]

/-- A reader that eats of its input at every call is called at most that often. -/
theorem Yields.length_le {μ : ρ → ℕ} (hμ : ∀ r a r', f r = .next a r' → μ r' < μ r)
    (h : Yields f r l) : l.length ≤ μ r := by
  induction h with
  | ended => exact Nat.zero_le _
  | next hf _ ih => exact Nat.lt_of_le_of_lt ih (hμ _ _ _ hf)

/-- With calls enough for the whole input the loop is its relation. -/
theorem loop_iff {μ : ρ → ℕ} (hμ : ∀ r a r', f r = .next a r' → μ r' < μ r) {n : ℕ}
    (hn : μ r < n) : loop f n r = some l ↔ Yields f r l :=
  ⟨yields_of_loop, fun h => h.loop_eq (Nat.lt_of_le_of_lt (h.length_le hμ) hn)⟩

/-! ### Rules -/

theorem Yields.unique (h : Yields f r l) (h' : Yields f r l') : l = l' := by
  induction h generalizing l' with
  | ended hf =>
    cases h' with
    | ended => rfl
    | next hf' => rw [hf] at hf'; cases hf'
  | next hf _ ih =>
    cases h' with
    | ended hf' => rw [hf] at hf'; cases hf'
    | next hf' h' =>
      rw [hf] at hf'
      cases hf'
      rw [ih h']

/-- What every call keeps, and so puts out. -/
theorem Yields.forall {P : ρ → Prop} {Q : α → Prop}
    (hstep : ∀ r a r', P r → f r = .next a r' → P r' ∧ Q a) (h : Yields f r l) (hr : P r) :
    ∀ a ∈ l, Q a := by
  induction h with
  | ended => simp
  | next hf _ ih =>
    obtain ⟨hr', ha⟩ := hstep _ _ _ hr hf
    simp only [List.mem_cons, forall_eq_or_imp]
    exact ⟨ha, ih hr'⟩

/-- Two readers that go on together put out related lists. -/
theorem Yields.simulate {R : ρ → δ → Prop} {S : α → β → Prop}
    (hended : ∀ r d, R r d → f r = .ended → g d = .ended)
    (hnext : ∀ r d a r', R r d → f r = .next a r' →
      ∃ b d', g d = .next b d' ∧ R r' d' ∧ S a b)
    (h : Yields f r l) (hr : R r d) : ∃ m, Yields g d m ∧ List.Forall₂ S l m := by
  induction h generalizing d with
  | ended hf => exact ⟨[], .ended (hended _ _ hr hf), .nil⟩
  | next hf _ ih =>
    obtain ⟨b, d', hg, hr', hab⟩ := hnext _ _ _ _ hr hf
    obtain ⟨m, hm, hall⟩ := ih hr'
    exact ⟨b :: m, .next hg hm, .cons hab hall⟩

/-- A coder and a decoder that keep their states related: what the coder writes, call by call, the
    decoder reads back. -/
theorem Yields.decode (left : δ → List ω) (out : α → List ω) {R : ρ → δ → Prop} {S : α → β → Prop}
    (hended : ∀ r d, R r d → f r = .ended → left d = [] → g d = .ended)
    (hnext : ∀ r d a r' rest, R r d → f r = .next a r' → left d = out a ++ rest →
      ∃ b d', g d = .next b d' ∧ left d' = rest ∧ R r' d' ∧ S a b)
    (h : Yields f r l) (hr : R r d) (hleft : left d = l.flatMap out) :
    ∃ m, Yields g d m ∧ List.Forall₂ S l m := by
  induction h generalizing d with
  | ended hf => exact ⟨[], .ended (hended _ _ hr hf hleft), .nil⟩
  | next hf _ ih =>
    rw [List.flatMap_cons] at hleft
    obtain ⟨b, d', hg, hleft', hr', hab⟩ := hnext _ _ _ _ _ hr hf hleft
    obtain ⟨m, hm, hall⟩ := ih hr' hleft'
    exact ⟨b :: m, .next hg hm, .cons hab hall⟩

end Reading
