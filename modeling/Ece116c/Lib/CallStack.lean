import Mathlib.Data.Nat.Notation

/-! A stack of return addresses with room for `n` of them, where calls that find it full are lost.

    Calls and returns that are nested no deeper than there is room leave the stack as it was, and
    every return finds the address of its call on top. -/

namespace CallStack

/-- What the stack sees of a program. -/
inductive Event (α β : Type*) where
  | call (a : α)
  | ret (b : β)
  | other

variable {α β : Type*}

def step (n : ℕ) (s : List α) : Event α β → List α
  | .call a => if s.length < n then a :: s else s
  | .ret _ => s.tail
  | .other => s

def run (n : ℕ) (s : List α) (es : List (Event α β)) : List α := es.foldl (step n) s

/-- A return finds an address on top that `R` holds to be right. -/
def Found (R : α → β → Prop) (s : List α) : Event α β → Prop
  | .call _ => True
  | .ret b => ∃ a ∈ s.head?, R a b
  | .other => True

/-- All returns do. -/
def Predicted (R : α → β → Prop) (n : ℕ) : List α → List (Event α β) → Prop
  | _, [] => True
  | s, e :: es => Found R s e ∧ Predicted R n (step n s e) es

/-- Every call comes with its return, and no more than `d` are open at a time. -/
inductive Nested (R : α → β → Prop) : ℕ → List (Event α β) → Prop
  | nil {d : ℕ} : Nested R d []
  | other {d : ℕ} {es : List (Event α β)} : Nested R d es → Nested R d (.other :: es)
  | call {d : ℕ} {a : α} {b : β} {body rest : List (Event α β)} :
      Nested R d body → R a b → Nested R (d + 1) rest →
        Nested R (d + 1) (.call a :: (body ++ .ret b :: rest))

variable {R : α → β → Prop} {n d : ℕ} {s : List α} {es es' : List (Event α β)}

theorem run_cons (e : Event α β) : run n s (e :: es) = run n (step n s e) es := rfl

theorem run_append : run n s (es ++ es') = run n (run n s es) es' := List.foldl_append

theorem predicted_append :
    Predicted R n s (es ++ es') ↔ Predicted R n s es ∧ Predicted R n (run n s es) es' := by
  induction es generalizing s with
  | nil => simp [Predicted, run]
  | cons e es ih => simp [Predicted, ih, run_cons, and_assoc]

/-- Nested calls leave the stack as it was. -/
theorem Nested.run_eq (h : Nested R d es) (hroom : s.length + d ≤ n) : run n s es = s := by
  induction h generalizing s with
  | nil => rfl
  | other _ ih => exact ih hroom
  | @call d a b body rest _ _ _ ihbody ihrest =>
    have hpush : step n s (.call a : Event α β) = a :: s := if_pos (by omega)
    have hbody : run n (a :: s) body = a :: s := ihbody (by simp; omega)
    rw [run_cons, hpush, run_append, hbody, run_cons]
    exact ihrest hroom

/-- And every return finds the address of its call. -/
theorem Nested.predicted (h : Nested R d es) (hroom : s.length + d ≤ n) : Predicted R n s es := by
  induction h generalizing s with
  | nil => trivial
  | other _ ih => exact ⟨trivial, ih hroom⟩
  | @call d a b body rest hbody hR _ ihbody ihrest =>
    have hpush : step n s (.call a : Event α β) = a :: s := if_pos (by omega)
    have hlength : (a :: s).length + d ≤ n := by simp; omega
    refine ⟨trivial, ?_⟩
    rw [hpush, predicted_append, hbody.run_eq hlength]
    exact ⟨ihbody hlength, ⟨a, rfl, hR⟩, ihrest hroom⟩

end CallStack
