import Ece116c.Cpusim.Main

/-! What the printed pair depends on. The bounds test cuts a run off when the address of the
    instruction just executed is greater than `maxPC`, the number of loaded bytes, and then the
    registers are not read again. An address at `maxPC` itself, or in a last word the file breaks
    off in, is fetched with bytes the loader never wrote and is not cut off. -/

namespace Cpusim

/-- The state in which iteration `n` starts, if the loop gets there. -/
def reach (instMem : InstMem) (maxPC : ℕ) : ℕ → Sim → Option Sim
  | 0, s => some s
  | n + 1, s =>
    match iteration instMem maxPC s with
    | some (s, true) => reach instMem maxPC n s
    | _ => none

/-- The four bytes at an address are loaded, or the bounds test cuts it off. -/
def Covered (maxPC : ℕ) (pc : BitVec 64) : Prop := pc.toNat + 4 ≤ maxPC ∨ maxPC < pc.toNat

instance (maxPC : ℕ) (pc : BitVec 64) : Decidable (Covered maxPC pc) := by
  unfold Covered
  infer_instance

/-! ### One iteration -/

/-- `execute` leaves `current_PC`. -/
theorem execute_currentPC {cpu cpu' : CPU} {parts : InstructionParts} {b : Bool}
    (h : cpu.execute parts = some (cpu', b)) : cpu'.currentPC = cpu.currentPC := by
  simp only [CPU.execute] at h
  split at h
  · cases h
    rfl
  · split at h
    · cases h
      rfl
    · obtain ⟨m, -, hm⟩ := Option.bind_eq_some_iff.mp h
      obtain ⟨v, -, hv⟩ := Option.map_eq_some_iff.mp hm
      cases hv
      rfl

theorem cycle_currentPC {instMem : InstMem} {cpu cpu' : CPU} {b : Bool}
    (h : cpu.cycle instMem = some (cpu', b)) : cpu'.currentPC = cpu.nextPC := by
  obtain ⟨w, -, hx⟩ := Option.bind_eq_some_iff.mp h
  exact execute_currentPC hx

/-- The bounds test is about the address of the instruction just executed. -/
theorem iteration_of_cycle {m : InstMem} {s : Sim} {cpu : CPU} {b : Bool} (maxPC : ℕ)
    (h : s.cpu.cycle m = some (cpu, b)) :
    iteration m maxPC s = some (if maxPC < s.cpu.nextPC.toNat then (⟨cpu, s.a0, s.a1⟩, false)
      else (⟨cpu, cpu.readRegister 10, cpu.readRegister 11⟩, b)) := by
  rw [iteration, h, Option.map_some, ← cycle_currentPC h]
  rfl

theorem simulate_last {m : InstMem} {maxPC : ℕ} {s t : Sim}
    (h : iteration m maxPC s = some (t, false)) (n : ℕ) :
    simulate m maxPC (n + 1) s = some (t.a0, t.a1) := by
  rw [simulate, h]
  rfl

theorem simulate_next {m : InstMem} {maxPC : ℕ} {s t : Sim}
    (h : iteration m maxPC s = some (t, true)) (n : ℕ) :
    simulate m maxPC (n + 1) s = simulate m maxPC n t := by
  rw [simulate, h]
  rfl

/-- A simulation that ends has a first iteration. -/
theorem iteration_of_simulate {m : InstMem} {maxPC n : ℕ} {s : Sim} {r : BitVec 32 × BitVec 32}
    (h : simulate m maxPC (n + 1) s = some r) : ∃ t b, iteration m maxPC s = some (t, b) := by
  rw [simulate] at h
  obtain ⟨⟨t, b⟩, hi, -⟩ := Option.bind_eq_some_iff.mp h
  exact ⟨t, b, hi⟩

section Agree

variable {m m' : InstMem} {maxPC : ℕ} (hm : ∀ a : Fin 4096, (a : ℕ) < maxPC → m a = m' a)

include hm

/-- Memories with the same loaded bytes hold the same instructions there. -/
theorem fetch_agree {cpu : CPU} (h : cpu.currentPC.toNat + 4 ≤ maxPC) :
    cpu.fetch m = cpu.fetch m' := by
  unfold CPU.fetch
  split
  · rw [hm _ (show cpu.currentPC.toNat < maxPC by omega),
      hm _ (show cpu.currentPC.toNat + 1 < maxPC by omega),
      hm _ (show cpu.currentPC.toNat + 2 < maxPC by omega),
      hm _ (show cpu.currentPC.toNat + 3 < maxPC by omega)]
  · rfl

theorem iteration_inside {s : Sim} (h : s.cpu.nextPC.toNat + 4 ≤ maxPC) :
    iteration m maxPC s = iteration m' maxPC s := by
  have hf : (s.cpu.updateCurrentFromNext).fetch m = (s.cpu.updateCurrentFromNext).fetch m' :=
    fetch_agree hm h
  rw [iteration, iteration, CPU.cycle, CPU.cycle, hf]

omit hm in
/-- Past the bound the loop ends with the pair it had. -/
theorem iteration_outside {s t : Sim} {b : Bool} (h : maxPC < s.cpu.nextPC.toNat)
    (ht : iteration m maxPC s = some (t, b)) : b = false ∧ t.a0 = s.a0 ∧ t.a1 = s.a1 := by
  obtain ⟨⟨cpu, d⟩, hc, -⟩ := Option.map_eq_some_iff.mp ht
  rw [iteration_of_cycle maxPC hc, if_pos h] at ht
  cases ht
  exact ⟨rfl, rfl, rfl⟩

/-! ### Runs -/

/-- Two runs from one state, the first through covered addresses only, print the same. -/
theorem simulate_agree {n n' : ℕ} {s : Sim} {r r' : BitVec 32 × BitVec 32}
    (hs : ∀ k t, reach m maxPC k s = some t → Covered maxPC t.cpu.nextPC)
    (h : simulate m maxPC n s = some r) (h' : simulate m' maxPC n' s = some r') : r = r' := by
  induction n generalizing s n' with
  | zero => cases h
  | succ n ih =>
    cases n' with
    | zero => cases h'
    | succ n' =>
      obtain ⟨t, b, hi⟩ := iteration_of_simulate h
      obtain ⟨t', b', hi'⟩ := iteration_of_simulate h'
      rcases hs 0 s rfl with hin | hout
      · -- the same instruction, so the same next state
        obtain ⟨rfl, rfl⟩ : t = t' ∧ b = b' := by
          rw [iteration_inside hm hin, hi', Option.some.injEq, Prod.mk.injEq] at hi
          exact ⟨hi.1.symm, hi.2.symm⟩
        cases b with
        | false =>
          rw [simulate_last hi] at h
          rw [simulate_last hi'] at h'
          exact Option.some.inj (h.symm.trans h')
        | true =>
          rw [simulate_next hi] at h
          rw [simulate_next hi'] at h'
          have hnext : ∀ k u, reach m maxPC k t = some u → Covered maxPC u.cpu.nextPC := by
            intro k u hk
            refine hs (k + 1) u ?_
            rw [reach, hi]
            exact hk
          exact ih hnext h h'
      · -- both loops break here, whatever was fetched
        obtain ⟨rfl, h0, h1⟩ := iteration_outside hout hi
        obtain ⟨rfl, h0', h1'⟩ := iteration_outside hout hi'
        rw [simulate_last hi, h0, h1] at h
        rw [simulate_last hi', h0', h1'] at h'
        exact Option.some.inj (h.symm.trans h')

/-- Two memories agree as long as the run stays inside. -/
theorem reach_agree {k : ℕ} {s : Sim}
    (hs : ∀ j < k, ∀ u, reach m maxPC j s = some u → u.cpu.nextPC.toNat + 4 ≤ maxPC) :
    reach m' maxPC k s = reach m maxPC k s := by
  induction k generalizing s with
  | zero => rfl
  | succ k ih =>
    rw [reach, reach, ← iteration_inside hm (hs 0 (Nat.succ_pos k) s rfl)]
    split
    · next t he =>
      refine ih fun j hj u hu => hs (j + 1) (Nat.succ_lt_succ hj) u ?_
      rw [reach, he]
      exact hu
    · rfl

end Agree

section Reach

variable {m : InstMem} {maxPC : ℕ}

theorem reach_add (j i : ℕ) (s : Sim) :
    reach m maxPC (j + i) s = (reach m maxPC j s).bind (reach m maxPC i) := by
  induction j generalizing s with
  | zero => rw [Nat.zero_add]; rfl
  | succ j ih =>
    rw [Nat.succ_add, reach, reach]
    split
    · exact ih _
    · rfl

/-- The rest of a simulation starts from a state it reaches. -/
theorem simulate_reach {k : ℕ} {s t : Sim} (h : reach m maxPC k s = some t) (n : ℕ) :
    simulate m maxPC (k + n) s = simulate m maxPC n t := by
  induction k generalizing s with
  | zero =>
    cases h
    rw [Nat.zero_add]
  | succ k ih =>
    rw [reach] at h
    split at h
    · next u hu =>
      rw [Nat.succ_add, simulate_next hu]
      exact ih h
    · cases h

/-- A loop that goes on was not past the bound. -/
theorem reach_not_outside {j k : ℕ} {s t u : Sim} (hjk : j < k) (hu : reach m maxPC j s = some u)
    (ht : reach m maxPC k s = some t) : ¬ maxPC < u.cpu.nextPC.toNat := by
  intro hout
  obtain ⟨i, rfl⟩ : ∃ i, k = j + (i + 1) := ⟨k - j - 1, by omega⟩
  rw [reach_add, hu, Option.bind_some, reach] at ht
  split at ht
  · next v hv => cases (iteration_outside hout hv).1
  · cases ht

end Reach

/-- The state in which iteration `n` of `main` starts, if the loop gets there. -/
def mainState (file : List (BitVec 32)) (uninit : InstMem) (n : ℕ) : Option Sim :=
  (load file 0 uninit).bind fun (instMem, maxPC) => reach instMem maxPC n Sim.init

section Main

variable {file : List (BitVec 32)} {uninit uninit' : InstMem}

theorem mainState_eq (h : file.length ≤ 4096) (n : ℕ) :
    mainState file uninit n = reach (loaded file uninit) file.length n Sim.init := by
  rw [mainState, load_loaded h]
  rfl

theorem loaded_agree (a : Fin 4096) (h : (a : ℕ) < file.length) :
    loaded file uninit a = loaded file uninit' a := by
  rw [loaded_of_lt h, loaded_of_lt h]

end Main

/-- **The output depends on the program only**, in every run that stays covered: whatever the
    loader did not write, a second run that ends prints the same pair. -/
theorem output_of_covered {file : List (BitVec 32)} (hlen : file.length ≤ 4096)
    {uninit uninit' : InstMem}
    (hs : ∀ k t, mainState file uninit k = some t → Covered file.length t.cpu.nextPC)
    {n n' : ℕ} {r r' : BitVec 32 × BitVec 32} (h : main file uninit n = some r)
    (h' : main file uninit' n' = some r') : r = r' := by
  simp only [mainState_eq hlen] at hs
  rw [main_eq hlen] at h h'
  exact simulate_agree loaded_agree hs h h'

/-- `addi a0, x0, 1` and a word of zeros, which ends the loop. -/
theorem output_of_covered_halting :
    main [0x13, 0x05, 0x10, 0x00, 0, 0, 0, 0] (fun _ => 0) 2 =
      main [0x13, 0x05, 0x10, 0x00, 0, 0, 0, 0] (fun _ => 0xFF) 2 := by
  have hs : ∀ k t, mainState [0x13, 0x05, 0x10, 0x00, 0, 0, 0, 0] (fun _ => 0) k = some t →
      Covered 8 t.cpu.nextPC := by
    intro k t ht
    match k with
    | 0 =>
      cases ht
      decide
    | 1 =>
      cases ht
      decide
    | k + 2 => cases ht
  obtain ⟨r, hr⟩ : ∃ r, main [0x13, 0x05, 0x10, 0x00, 0, 0, 0, 0] (fun _ => 0) 2 = some r :=
    ⟨(1, 0), by decide⟩
  obtain ⟨r', hr'⟩ : ∃ r, main [0x13, 0x05, 0x10, 0x00, 0, 0, 0, 0] (fun _ => 0xFF) 2 = some r :=
    ⟨(1, 0), by decide⟩
  rw [hr, hr', output_of_covered (by decide) hs hr hr']

/-- `addi a0, x0, 1` alone: the bytes after it are executed and counted. -/
theorem output_depends_on_uninit :
    ¬ ∀ (file : List (BitVec 32)) (uninit uninit' : InstMem) (n n' : ℕ)
      (r r' : BitVec 32 × BitVec 32), file.length ≤ 4096 → main file uninit n = some r →
        main file uninit' n' = some r' → r = r' := by
  intro h
  have h1 : main [0x13, 0x05, 0x10, 0x00] (fun _ => 0) 2 = some (1, 0) := by decide
  have h2 : main [0x13, 0x05, 0x10, 0x00]
      (fun a => if a = 4 then 0x13 else if a = 5 then 0x05 else if a = 6 then 0x15 else 0) 3 =
        some (2, 0) := by decide
  exact absurd (h _ _ _ _ _ _ _ (by decide) h1 h2) (by decide)

end Cpusim
