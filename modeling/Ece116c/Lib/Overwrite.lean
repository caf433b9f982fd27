import Mathlib.Data.List.Induction

/-! Writes to an array, each over some of its places: what a place holds is told by the last write
    over it. -/

namespace Overwrite

variable {ω α β : Type*} (covers : ω → α → Bool) (value : ω → α → β)

/-- The array after a write. -/
def write (f : α → β) (w : ω) : α → β := fun a => if covers w a then value w a else f a

/-- The last write over a place. -/
def last (ws : List ω) (a : α) : Option ω := ws.reverse.find? fun w => covers w a

theorem last_concat (ws : List ω) (w : ω) (a : α) :
    last covers (ws ++ [w]) a = if covers w a then some w else last covers ws a := by
  rw [last, List.reverse_append, List.reverse_singleton, List.singleton_append, List.find?_cons]
  cases covers w a <;> rfl

/-- The law of a sequence of writes. -/
theorem foldl_write (f : α → β) (ws : List ω) (a : α) :
    ws.foldl (write covers value) f a = (last covers ws a).elim (f a) fun w => value w a := by
  induction ws using List.reverseRecOn with
  | nil => rfl
  | append_singleton ws w ih =>
    rw [List.foldl_append, List.foldl_cons, List.foldl_nil, last_concat, write, ih]
    cases covers w a <;> rfl

end Overwrite
