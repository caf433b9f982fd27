import Ece116c.Predict.Law

/-! Warming up: when all conditional branches go one way, every address is predicted right after
    its first 22 occurrences, whatever happened before. -/

namespace Predict
open TwoLevel

/-- The states that calls of `predict` and `update` in turn lead to; `due` says that an `update`
    comes next. It is given the `branch_update` that `predict` has returned. -/
inductive Reachable : Bool → MyPredictor → Prop
  | new (u : MyUpdate) (bi : BranchInfo) : Reachable false (MyPredictor.new u bi)
  | predict {p : MyPredictor} (h : Reachable false p) (b : BranchInfo) :
      Reachable true (p.predict b)
  | update {p : MyPredictor} (h : Reachable true p) (taken : Bool) (target : BitVec 32) :
      Reachable false (p.update p.u taken target)

/-- The conditional occurrences of an address. -/
def occurrences (a : BitVec 32) (ts : List Trace) : ℕ :=
  ts.countP fun t => t.bi.conditional && t.bi.address == a

/-- How many of them are mispredicted, from state `p` on. -/
def mispredictions (a : BitVec 32) (p : MyPredictor) : List Trace → ℕ
  | [] => 0
  | t :: ts => (t.directionMissed (p.predict t.bi).u && t.bi.address == a).toNat +
      mispredictions a (p.branch t) ts

section WarmUp

variable {p : MyPredictor} {l : List (BitVec 32 × Bool)} {a : BitVec 32} {d : Bool}

theorem Reachable.rep {due : Bool} (h : Reachable due p) :
    ∃ l, Rep l p ∧ (due = true → Primed p) := by
  induction h with
  | new u bi => exact ⟨[], Rep.new u bi, nofun⟩
  | predict h b ih =>
    obtain ⟨l, hrep, -⟩ := ih
    exact ⟨l, hrep.predict b, fun _ => primed_predict _ b⟩
  | @update p h taken target ih =>
    obtain ⟨l, hrep, hprimed⟩ := ih
    by_cases hc : p.bi.conditional = true
    · exact ⟨_, hrep.update (hprimed rfl) hc, nofun⟩
    · refine ⟨l, ?_, nofun⟩
      rwa [update_of_unconditional _ hc]

theorem occurrences_eq (a : BitVec 32) (ts : List Trace) :
    occurrences a ts = (conditionals ts).countP fun x => decide (x.1 = a) := by
  rw [conditionals, List.countP_map, List.countP_filter, occurrences]
  refine List.countP_congr fun t _ => ?_
  rw [Bool.and_comm]
  rfl

theorem mem_conditionals {ts : List Trace} {x : BitVec 32 × Bool} (hx : x ∈ conditionals ts) :
    ∃ t ∈ ts, t.bi.conditional = true ∧ t.taken = x.2 := by
  obtain ⟨t, ht, rfl⟩ := List.mem_map.mp hx
  exact ⟨t, (List.mem_filter.mp ht).1, (List.mem_filter.mp ht).2, rfl⟩

/-- The direction after 22 occurrences, in terms of the two-level predictors. -/
theorem Rep.direction (h : Rep l p) {ts : List Trace}
    (hd : ∀ t ∈ ts, t.bi.conditional = true → t.taken = d) {b : BranchInfo}
    (hb : b.conditional = true) (hn : 22 ≤ occurrences b.address ts) :
    ((p.run ts).predict b).u.directionPrediction = d := by
  have hall : ∀ x ∈ conditionals ts, x.2 = d := by
    intro x hx
    obtain ⟨t, ht, hc, htaken⟩ := mem_conditionals hx
    exact htaken.symm.trans (hd t ht hc)
  rw [occurrences_eq] at hn
  rw [predict_u _ hb]
  have hrun := h.run ts
  rcases hrun.lookup_direction b with ⟨i, hdir⟩ | hdir
  · have hlen : historyLength i + max 4 (7 + 1 - 4) ≤ 22 := by
      match i with
      | 0 | 1 | 2 | 3 => decide
    rw [hdir]
    exact Scheme.warm_up hall (le_trans hlen hn)
  · have hlen : localHistLength + max 4 (7 + 1 - 4) ≤ 22 := by decide
    rw [hdir]
    exact Scheme.warm_up hall (le_trans hlen hn)

/-- So at most the first 22 occurrences are mispredicted. -/
theorem Rep.mispredictions_le (h : Rep l p) (ts pre : List Trace)
    (hd : ∀ t ∈ pre ++ ts, t.bi.conditional = true → t.taken = d) :
    mispredictions a (p.run pre) ts + min 22 (occurrences a pre) ≤ 22 := by
  induction ts generalizing pre with
  | nil => exact le_trans (Nat.le_of_eq (Nat.zero_add _)) (Nat.min_le_left _ _)
  | cons t ts ih =>
    have hrest := ih (pre ++ [t]) (by rwa [List.append_assoc])
    have hrun : p.run (pre ++ [t]) = (p.run pre).branch t := by
      rw [MyPredictor.run, List.foldl_append]
      rfl
    have hocc : occurrences a (pre ++ [t]) =
        occurrences a pre + (t.bi.conditional && t.bi.address == a).toNat := by
      rw [occurrences, List.countP_append, List.countP_singleton]
      cases t.bi.conditional && t.bi.address == a <;> rfl
    rw [hrun, hocc] at hrest
    rw [mispredictions]
    by_cases hmiss : (t.directionMissed ((p.run pre).predict t.bi).u && t.bi.address == a) = true
    · -- a misprediction is one of the first 22
      rw [Bool.and_eq_true, Trace.directionMissed, Bool.and_eq_true, bne_iff_ne] at hmiss
      obtain ⟨⟨hc, hwrong⟩, haddr⟩ := hmiss
      have hfew : occurrences a pre < 22 := by
        by_contra hmany
        rw [beq_iff_eq] at haddr
        have hmany' : 22 ≤ occurrences t.bi.address pre := by
          rw [haddr]
          exact Nat.not_lt.mp hmany
        have hdir := h.direction (fun s hs => hd s (List.mem_append_left _ hs)) hc hmany'
        have htaken := hd t (List.mem_append_right _ (List.mem_cons_self ..)) hc
        exact hwrong (hdir.trans htaken.symm)
      have hone : (t.directionMissed ((p.run pre).predict t.bi).u && t.bi.address == a).toNat ≤ 1 :=
        Bool.toNat_le _
      rw [hc, haddr, Bool.and_self, Bool.toNat_true] at hrest
      omega
    · rw [Bool.not_eq_true] at hmiss
      rw [hmiss, Bool.toNat_false]
      omega

end WarmUp

/-- Warm-up: in a continuation whose conditional branches all have outcome `d`, the 23rd and every
    later conditional occurrence of an address is predicted `d`, so at most 22 of its occurrences
    are mispredicted. -/
theorem warm_up_after_22 {due : Bool} {p : MyPredictor} (hp : Reachable due p) {d : Bool}
    {ts : List Trace} (hd : ∀ t ∈ ts, t.bi.conditional = true → t.taken = d) :
    (∀ pre t post, ts = pre ++ t :: post → t.bi.conditional = true →
      22 ≤ occurrences t.bi.address pre →
        ((p.run pre).predict t.bi).u.directionPrediction = d) ∧
    ∀ a, mispredictions a p ts ≤ 22 := by
  obtain ⟨l, hrep, -⟩ := hp.rep
  constructor
  · rintro pre t post rfl ht hn
    exact hrep.direction (fun s hs => hd s (List.mem_append_left _ hs)) ht hn
  · intro a
    have h := hrep.mispredictions_le (a := a) ts [] hd
    exact le_trans (Nat.le_add_right _ _) h

/-- A branch that is always taken, from the first call on. -/
theorem warm_up_after_22_taken : mispredictions 8
    (MyPredictor.new ⟨⟨false, 0⟩, fun _ => 0, 0, 0, 0, fun _ => false, false, 0⟩ ⟨0, 0, 0⟩)
      (List.replicate 1000 ⟨true, 64, ⟨8, 0, 1⟩⟩) ≤ 22 := by
  refine (warm_up_after_22 (Reachable.new _ _) (d := true) fun t ht _ => ?_).2 8
  rw [List.eq_of_mem_replicate ht]

end Predict
