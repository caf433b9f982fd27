import Mathlib.Data.List.Induction
import Mathlib.Data.Nat.Digits.Defs
import Mathlib.Logic.Function.Basic

/-! Two-level branch prediction: a history register, shared by the branches with one key, selects
    together with the branch one of many saturating counters, which decides the direction.

    What a register holds is told by the outcomes it has seen; and when all outcomes are alike, a
    branch is predicted right as soon as its register and then its counter have settled. -/

namespace TwoLevel

/-! ### Histories -/

/-- Outcomes as a binary number, the first one in the lowest bit. -/
def code (l : List Bool) : ℕ := Nat.ofDigits 2 (l.map Bool.toNat)

/-- A register of `n` bits takes an outcome into its lowest bit. -/
def shiftIn (n h : ℕ) (b : Bool) : ℕ := (2 * h + b.toNat) % 2 ^ n

theorem shiftIn_lt (n h : ℕ) (b : Bool) : shiftIn n h b < 2 ^ n := Nat.mod_lt _ (Nat.two_pow_pos n)

theorem code_cons (b : Bool) (l : List Bool) : code (b :: l) = b.toNat + 2 * code l := by
  rw [code, List.map_cons, Nat.ofDigits_cons]
  rfl

/-- The first `n` outcomes are the lowest `n` bits. -/
theorem code_take (n : ℕ) (l : List Bool) : code (l.take n) = code l % 2 ^ n := by
  induction l generalizing n with
  | nil => rw [List.take_nil]; exact (Nat.zero_mod _).symm
  | cons b l ih =>
    cases n with
    | zero => rw [List.take_zero, Nat.pow_zero, Nat.mod_one]; rfl
    | succ n =>
      have hb : b.toNat < 2 := b.toNat_lt
      have hdiv : (b.toNat + 2 * code l) / 2 = code l := by omega
      rw [List.take_succ_cons, code_cons, code_cons, ih, Nat.pow_succ, Nat.mul_comm (2 ^ n),
        Nat.mod_mul, hdiv]
      omega

theorem shiftIn_code (n : ℕ) (b : Bool) (l : List Bool) :
    shiftIn n (code (l.take n)) b = code ((b :: l).take n) := by
  rw [code_take, code_take, code_cons, shiftIn, Nat.add_comm, Nat.add_mod, Nat.mul_mod,
    Nat.mod_mod, ← Nat.mul_mod, ← Nat.add_mod]

/-! ### Saturating counters -/

/-- A counter between 0 and `top` goes up for a taken branch, else down. -/
def push (top : ℕ) (b : Bool) (t : ℕ) : ℕ := if b then min top (t + 1) else t - 1

/-- How far a counter is on the side of outcome `d`. -/
def toward (top : ℕ) (d : Bool) (t : ℕ) : ℕ := if d then t else top - t

variable {top t : ℕ}

theorem push_le (b : Bool) (h : t ≤ top) : push top b t ≤ top := by
  rw [push]
  split <;> omega

theorem toward_push (d : Bool) (h : t ≤ top) :
    toward top d (push top d t) = min top (toward top d t + 1) := by
  cases d with
  | true => rfl
  | false =>
    change top - (t - 1) = min top (top - t + 1)
    omega

/-! ### The predictor -/

/-- Branches `α`, the keys `κ` of the history registers and the places `ι` of the counters. -/
structure Scheme (α κ ι : Type*) where
  length : ℕ
  top : ℕ
  threshold : ℕ
  init : ℕ
  key : α → κ
  index : α → ℕ → ι
  threshold_pos : 1 ≤ threshold
  threshold_le : threshold ≤ top
  init_le : init ≤ top

variable {α κ ι : Type*}

namespace Scheme

/-- Registers within their length and counters within their range. -/
@[ext] structure State (P : Scheme α κ ι) where
  hist : κ → ℕ
  count : ι → ℕ
  hist_lt : ∀ k, hist k < 2 ^ P.length
  count_le : ∀ i, count i ≤ P.top

variable {P : Scheme α κ ι}

def start (P : Scheme α κ ι) : P.State where
  hist _ := 0
  count _ := P.init
  hist_lt _ := Nat.two_pow_pos _
  count_le _ := P.init_le

/-- The counter a branch selects. -/
def State.slot (s : P.State) (a : α) : ι := P.index a (s.hist (P.key a))

def State.predict (s : P.State) (a : α) : Bool := decide (P.threshold ≤ s.count (s.slot a))

variable [DecidableEq κ] [DecidableEq ι]

/-- The counter learns the outcome, and the register takes it up. -/
def State.update (s : P.State) (a : α) (b : Bool) : P.State where
  hist := Function.update s.hist (P.key a) (shiftIn P.length (s.hist (P.key a)) b)
  count := Function.update s.count (s.slot a) (push P.top b (s.count (s.slot a)))
  hist_lt k := by
    rw [Function.update_apply]
    split
    · exact shiftIn_lt ..
    · exact s.hist_lt k
  count_le i := by
    rw [Function.update_apply]
    split
    · exact push_le b (s.count_le _)
    · exact s.count_le i

@[simp] theorem State.update_hist (s : P.State) (a : α) (b : Bool) (k : κ) :
    (s.update a b).hist k =
      if k = P.key a then shiftIn P.length (s.hist (P.key a)) b else s.hist k :=
  Function.update_apply ..

@[simp] theorem State.update_count (s : P.State) (a : α) (b : Bool) (i : ι) :
    (s.update a b).count i =
      if i = s.slot a then push P.top b (s.count (s.slot a)) else s.count i :=
  Function.update_apply ..

/-- The state after a list of branches with their outcomes. -/
def run (P : Scheme α κ ι) (l : List (α × Bool)) : P.State :=
  l.foldl (fun s x => s.update x.1 x.2) P.start

theorem run_concat (l : List (α × Bool)) (a : α) (b : Bool) :
    P.run (l ++ [(a, b)]) = (P.run l).update a b := by
  rw [run, List.foldl_append]
  rfl

/-- The outcomes a register has seen, the newest first. -/
def seen (P : Scheme α κ ι) (k : κ) (l : List (α × Bool)) : List Bool :=
  ((l.filter fun x => decide (P.key x.1 = k)).map Prod.snd).reverse

omit [DecidableEq ι] in
theorem seen_concat (k : κ) (l : List (α × Bool)) (a : α) (b : Bool) :
    P.seen k (l ++ [(a, b)]) = if P.key a = k then b :: P.seen k l else P.seen k l := by
  rw [seen, List.filter_append, List.map_append, List.reverse_append]
  by_cases h : P.key a = k
  · rw [if_pos h, List.filter_cons_of_pos (by simpa using h)]
    rfl
  · rw [if_neg h, List.filter_cons_of_neg (by simpa using h)]
    rfl

/-- A register holds the last outcomes it has seen. -/
theorem run_hist (k : κ) (l : List (α × Bool)) :
    (P.run l).hist k = code ((P.seen k l).take P.length) := by
  induction l using List.reverseRecOn with
  | nil => rw [seen, List.filter_nil, List.map_nil, List.reverse_nil, List.take_nil]; rfl
  | append_singleton l x ih =>
    obtain ⟨a, b⟩ := x
    rw [run_concat, seen_concat, State.update_hist]
    by_cases h : P.key a = k
    · subst h
      rw [if_pos rfl, if_pos rfl, ih, shiftIn_code]
    · rw [if_neg (Ne.symm h), if_neg h, ih]

/-- A counter that no register can select keeps its first value. -/
theorem run_count_of_unused {i : ι} (hi : ∀ a, ∀ h < 2 ^ P.length, P.index a h ≠ i)
    (l : List (α × Bool)) : (P.run l).count i = P.init := by
  induction l using List.reverseRecOn with
  | nil => rfl
  | append_singleton l x ih =>
    have hslot : i ≠ (P.run l).slot x.1 := (hi _ _ ((P.run l).hist_lt _)).symm
    rw [run_concat, State.update_count, if_neg hslot, ih]

/-! ### Warming up -/

section WarmUp

variable {d : Bool} {l₀ l : List (α × Bool)} {a : α}

/-- After `length` alike outcomes a register has settled. -/
theorem hist_settled (hd : ∀ x ∈ l, x.2 = d)
    (hn : P.length ≤ l.countP fun x => decide (P.key x.1 = P.key a)) :
    (P.run (l₀ ++ l)).hist (P.key a) = code (List.replicate P.length d) := by
  have hsplit : P.seen (P.key a) (l₀ ++ l) = P.seen (P.key a) l ++ P.seen (P.key a) l₀ := by
    rw [seen, List.filter_append, List.map_append, List.reverse_append]
    rfl
  have hlen : (P.seen (P.key a) l).length = l.countP fun x => decide (P.key x.1 = P.key a) := by
    rw [seen, List.length_reverse, List.length_map, List.countP_eq_length_filter]
  have hall : P.seen (P.key a) l =
      List.replicate (l.countP fun x => decide (P.key x.1 = P.key a)) d := by
    refine List.eq_replicate_iff.mpr ⟨hlen, fun b hb => ?_⟩
    rw [seen, List.mem_reverse] at hb
    obtain ⟨x, hx, rfl⟩ := List.mem_map.mp hb
    exact hd x ((List.mem_filter.mp hx).1)
  rw [run_hist, hsplit, List.take_append_of_le_length (by omega), hall, List.take_replicate,
    Nat.min_eq_left hn]

variable [DecidableEq α]

/-- From then on every occurrence of a branch brings its counter closer to the outcome, and no
    other branch takes it away. -/
theorem count_toward (hd : ∀ x ∈ l, x.2 = d) :
    min P.top ((l.countP fun x => decide (x.1 = a)) - P.length) ≤
      toward P.top d ((P.run (l₀ ++ l)).count (P.index a (code (List.replicate P.length d)))) := by
  induction l using List.reverseRecOn with
  | nil =>
    rw [List.countP_nil, Nat.zero_sub, Nat.min_zero]
    exact Nat.zero_le _
  | append_singleton l x ih =>
    obtain ⟨b, o⟩ := x
    have hl : ∀ x ∈ l, x.2 = d := fun x hx => hd x (List.mem_append_left _ hx)
    obtain rfl : o = d := hd (b, o) (List.mem_append_right _ (List.mem_singleton.mpr rfl))
    have hle := (P.run (l₀ ++ l)).count_le (P.index a (code (List.replicate P.length o)))
    have hprev := ih hl
    rw [← List.append_assoc, run_concat, List.countP_append, List.countP_singleton,
      State.update_count]
    by_cases hslot : (P.run (l₀ ++ l)).slot b = P.index a (code (List.replicate P.length o))
    · rw [if_pos hslot.symm, hslot, toward_push o hle]
      split <;> omega
    · rw [if_neg (Ne.symm hslot)]
      by_cases hba : b = a
      · -- an occurrence that misses the counter comes before its register has settled
        subst hba
        have hearly : (l.countP fun x => decide (x.1 = b)) < P.length := by
          by_contra hlate
          have hkey : (l.countP fun x => decide (x.1 = b)) ≤
              l.countP fun x => decide (P.key x.1 = P.key b) :=
            List.countP_mono_left fun x _ hx => by
              rw [decide_eq_true_eq] at hx ⊢
              rw [hx]
          exact hslot (congrArg (P.index b) (hist_settled hl (by omega)))
        rw [if_pos (decide_eq_true rfl)]
        omega
      · rw [if_neg (by simpa using hba)]
        exact hprev

/-- When every outcome is `d`, a branch is predicted `d` once it has occurred as often as its
    register is long and its counter is wide on one side. -/
theorem warm_up (hd : ∀ x ∈ l, x.2 = d)
    (hn : P.length + max P.threshold (P.top + 1 - P.threshold) ≤
      l.countP fun x => decide (x.1 = a)) : (P.run (l₀ ++ l)).predict a = d := by
  have hkey : (l.countP fun x => decide (x.1 = a)) ≤
      l.countP fun x => decide (P.key x.1 = P.key a) :=
    List.countP_mono_left fun x _ hx => by
      rw [decide_eq_true_eq] at hx ⊢
      rw [hx]
  have hslot : (P.run (l₀ ++ l)).slot a = P.index a (code (List.replicate P.length d)) :=
    congrArg (P.index a) (hist_settled hd (by omega))
  have hcount := @count_toward _ _ _ P _ _ d l₀ l a _ hd
  have hpos := P.threshold_pos
  have hle := P.threshold_le
  rw [State.predict, hslot]
  cases d with
  | true =>
    rw [decide_eq_true_eq]
    rw [toward, if_pos rfl] at hcount
    omega
  | false =>
    rw [decide_eq_false_iff_not]
    rw [toward, if_neg Bool.false_ne_true] at hcount
    omega

end WarmUp

end Scheme

end TwoLevel
