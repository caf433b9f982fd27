import Ece116c.Cpusim.Execute
import Ece116c.Cpusim.Independence
import Mathlib.Data.Nat.Find

/-! How exact the condition of `output_of_covered` is. All runs of a file are the same up to the
    first address that is not covered, the frontier; what matters is what can be printed from
    there. Where the word at the frontier jumps nowhere, that is decided by one `execute` of every
    word that has the loaded bytes. -/

namespace Cpusim

/-- `t` is the first state of a run whose address is not covered. -/
def Frontier (file : List (BitVec 32)) (t : Sim) : Prop :=
  ∃ uninit k, mainState file uninit k = some t ∧ ¬Covered file.length t.cpu.nextPC ∧
    ∀ j < k, ∀ u, mainState file uninit j = some u → Covered file.length u.cpu.nextPC

/-- `r` can be printed from `t`, with some bytes behind the file. -/
def Prints (file : List (BitVec 32)) (t : Sim) (r : BitVec 32 × BitVec 32) : Prop :=
  ∃ uninit n, simulate (loaded file uninit) file.length n t = some r

/-- The output does not depend on the bytes behind the file. -/
def Independent (file : List (BitVec 32)) : Prop :=
  ∀ uninit uninit' n n' r r', main file uninit n = some r → main file uninit' n' = some r' → r = r'

variable {file : List (BitVec 32)} {t : Sim} {r : BitVec 32 × BitVec 32}

/-! ### Up to the frontier -/

/-- Before the frontier the words are loaded. -/
theorem inside_of_covered {m : InstMem} {maxPC k : ℕ} {s t : Sim}
    (ht : reach m maxPC k s = some t)
    (hs : ∀ j < k, ∀ u, reach m maxPC j s = some u → Covered maxPC u.cpu.nextPC) :
    ∀ j < k, ∀ u, reach m maxPC j s = some u → u.cpu.nextPC.toNat + 4 ≤ maxPC :=
  fun j hj u hu => (hs j hj u hu).resolve_right (reach_not_outside hj hu ht)

/-- Every run comes to the frontier. -/
theorem Frontier.reach (hlen : file.length ≤ 4096) (h : Frontier file t) :
    ∃ k, ∀ uninit, reach (loaded file uninit) file.length k Sim.init = some t := by
  obtain ⟨uninit, k, ht, -, hs⟩ := h
  simp only [mainState_eq hlen] at ht hs
  exact ⟨k, fun uninit' => (reach_agree loaded_agree (inside_of_covered ht hs)).trans ht⟩

/-- What can be printed from the frontier `main` can print. -/
theorem Frontier.main_of_prints (hlen : file.length ≤ 4096) (h : Frontier file t)
    (hr : Prints file t r) : ∃ uninit n, main file uninit n = some r := by
  obtain ⟨k, hk⟩ := h.reach hlen
  obtain ⟨uninit, n, hn⟩ := hr
  exact ⟨uninit, k + n, by rw [main_eq hlen, simulate_reach (hk uninit), hn]⟩

/-- And nothing else. -/
theorem Frontier.prints_of_main (hlen : file.length ≤ 4096) (h : Frontier file t)
    {uninit : InstMem} {n : ℕ} (hr : main file uninit n = some r) : Prints file t r := by
  obtain ⟨k, hk⟩ := h.reach hlen
  rw [main_eq hlen] at hr
  rcases Nat.le_total k n with hle | hle
  · obtain ⟨i, rfl⟩ := Nat.exists_eq_add_of_le hle
    rw [simulate_reach (hk uninit)] at hr
    exact ⟨uninit, i, hr⟩
  · -- the loop has gone on beyond `n` iterations, so it has not printed by then
    obtain ⟨i, rfl⟩ := Nat.exists_eq_add_of_le hle
    have hat := hk uninit
    rw [reach_add] at hat
    obtain ⟨u, hu, -⟩ := Option.bind_eq_some_iff.mp hat
    have hnone := simulate_reach hu 0
    rw [Nat.add_zero, hr] at hnone
    cases hnone

/-- A run is covered, or it comes to the frontier. -/
theorem covered_or_frontier (file : List (BitVec 32)) (uninit : InstMem) :
    (∀ k t, mainState file uninit k = some t → Covered file.length t.cpu.nextPC) ∨
      ∃ t, Frontier file t := by
  by_cases h : ∀ k t, mainState file uninit k = some t → Covered file.length t.cpu.nextPC
  · exact .inl h
  · push Not at h
    classical
    obtain ⟨t, ht, hno⟩ := Nat.find_spec h
    refine .inr ⟨t, uninit, Nat.find h, ht, hno, fun j hj u hu => ?_⟩
    by_contra hout
    exact Nat.find_min h hj ⟨u, hu, hout⟩

/-- **The exact condition.** The output of a file is independent of the bytes behind it if and only
    if no two pairs can be printed from the frontier. -/
theorem independent_iff_frontier (hlen : file.length ≤ 4096) :
    Independent file ↔ ∀ t, Frontier file t → ∀ r r', Prints file t r → Prints file t r' →
      r = r' := by
  constructor
  · intro hind t ht r r' hr hr'
    obtain ⟨uninit, n, hn⟩ := ht.main_of_prints hlen hr
    obtain ⟨uninit', n', hn'⟩ := ht.main_of_prints hlen hr'
    exact hind _ _ _ _ _ _ hn hn'
  · intro hfrontier uninit uninit' n n' r r' h h'
    rcases covered_or_frontier file uninit with hs | ⟨t, ht⟩
    · simp only [mainState_eq hlen] at hs
      rw [main_eq hlen] at h h'
      exact simulate_agree loaded_agree hs h h'
    · exact hfrontier t ht r r' (ht.prints_of_main hlen h) (ht.prints_of_main hlen h')

/-! ### One `execute` at the frontier -/

/-- The word has the loaded bytes at an address. -/
def Completes (file : List (BitVec 32)) (pc : ℕ) (w : BitVec 32) : Prop :=
  ∀ i < 4, ∀ x, file[pc + i]? = some x → w.extractLsb' (8 * i) 8 = x.setWidth 8

/-- The word at `t` is turned down, or the next one, behind the file, is in the array; `r` is what
    the word leaves in `x10` and `x11`. -/
def Ends (t : Sim) (w : BitVec 32) (r : BitVec 32 × BitVec 32) : Prop :=
  t.cpu.nextPC.toNat + 4 ≤ 4096 ∧
    ∃ cpu b, t.cpu.updateCurrentFromNext.execute (CPU.decode w) = some (cpu, b) ∧
      (b = true → cpu.nextPC.toNat = t.cpu.nextPC.toNat + 4 ∧ t.cpu.nextPC.toNat + 8 ≤ 4096) ∧
      r = (cpu.readRegister 10, cpu.readRegister 11)

/-- No word that has the loaded bytes at `t` jumps. -/
def Straight (file : List (BitVec 32)) (t : Sim) : Prop :=
  ∀ w cpu, Completes file t.cpu.nextPC.toNat w →
    t.cpu.updateCurrentFromNext.execute (CPU.decode w) = some (cpu, true) →
      cpu.nextPC.toNat = t.cpu.nextPC.toNat + 4

/-- A word of zeros stops the loop and changes nothing. -/
theorem cycle_zeros {m : InstMem} {cpu : CPU} {pc : ℕ} (hpc : cpu.nextPC.toNat = pc)
    (hlt : pc + 4 ≤ 4096) (hz : ∀ a : Fin 4096, pc ≤ a → (a : ℕ) < pc + 4 → m a = 0) :
    cpu.cycle m = some (cpu.updateCurrentFromNext, false) := by
  have hcur : cpu.updateCurrentFromNext.currentPC.toNat = pc := hpc
  have hf : cpu.updateCurrentFromNext.fetch m = some (0#8 ++ 0#8 ++ 0#8 ++ 0#8) := by
    refine CPU.fetch_word _ (by omega) ?_ ?_ ?_ ?_ <;>
      exact fun a ha => hz a (by omega) (by omega)
  rw [CPU.cycle, hf, Option.bind_some]
  exact CPU.execute_invalid _ rfl

/-- The word `w` at an address, and zeros elsewhere. -/
def wordAt (pc : ℕ) (w : BitVec 32) : InstMem := fun a =>
  if pc ≤ a ∧ (a : ℕ) < pc + 4 then w.extractLsb' (8 * (a - pc)) 8 else 0

/-- With the loaded bytes in it, it is what is fetched. -/
theorem fetch_wordAt {cpu : CPU} {pc : ℕ} {w : BitVec 32} (hpc : cpu.currentPC.toNat = pc)
    (hlt : pc + 4 ≤ 4096) (hw : Completes file pc w) :
    cpu.fetch (loaded file (wordAt pc w)) = some w := by
  have hbyte : ∀ i < 4, ∀ a : Fin 4096, (a : ℕ) = cpu.currentPC.toNat + i →
      loaded file (wordAt pc w) a = w.extractLsb' (8 * i) 8 := by
    intro i hi a ha
    rw [hpc] at ha
    cases hx : file[(a : ℕ)]? with
    | some x =>
      rw [loaded, hx]
      exact (hw i hi x (ha ▸ hx)).symm
    | none =>
      have hsub : (a : ℕ) - pc = i := by omega
      rw [loaded, hx, Option.map_none, Option.getD_none, wordAt, if_pos (by omega), hsub]
  have hfetch := cpu.fetch_word (m := loaded file (wordAt pc w)) (by omega) (hbyte 0 (by decide))
    (hbyte 1 (by decide)) (hbyte 2 (by decide)) (hbyte 3 (by decide))
  rw [hfetch]
  exact congrArg some (Bits.bytes_join w)

/-- What is fetched has the loaded bytes. -/
theorem completes_of_fetch {cpu : CPU} {uninit : InstMem} {w : BitVec 32}
    (hw : cpu.fetch (loaded file uninit) = some w) :
    cpu.currentPC.toNat + 4 ≤ 4096 ∧ Completes file cpu.currentPC.toNat w := by
  by_cases hlt : cpu.currentPC.toNat + 3 < 4096
  · have hbyte : ∀ i < 4, ∃ b, ∀ a : Fin 4096, (a : ℕ) = cpu.currentPC.toNat + i →
        loaded file uninit a = b := fun i hi =>
      ⟨loaded file uninit ⟨cpu.currentPC.toNat + i, by omega⟩, fun a ha => congrArg _ (Fin.ext ha)⟩
    obtain ⟨b0, h0⟩ := hbyte 0 (by decide)
    obtain ⟨b1, h1⟩ := hbyte 1 (by decide)
    obtain ⟨b2, h2⟩ := hbyte 2 (by decide)
    obtain ⟨b3, h3⟩ := hbyte 3 (by decide)
    rw [cpu.fetch_word hlt h0 h1 h2 h3] at hw
    cases hw
    obtain ⟨e0, e1, e2, e3⟩ := Bits.join_bytes b3 b2 b1 b0
    refine ⟨by omega, fun i hi x hx => ?_⟩
    have hcell : loaded file uninit ⟨cpu.currentPC.toNat + i, by omega⟩ = x.setWidth 8 := by
      rw [loaded, hx]
      rfl
    rw [← hcell]
    obtain rfl | rfl | rfl | rfl : i = 0 ∨ i = 1 ∨ i = 2 ∨ i = 3 := by omega
    · exact e0.trans (h0 _ rfl).symm
    · exact e1.trans (h1 _ rfl).symm
    · exact e2.trans (h2 _ rfl).symm
    · exact e3.trans (h3 _ rfl).symm
  · rw [CPU.fetch, dif_neg hlt] at hw
    cases hw

/-- The word behind one that is not covered is past the bound. -/
theorem past_of_not_covered {maxPC : ℕ} {pc : BitVec 64} (h : ¬Covered maxPC pc) :
    maxPC < pc.toNat + 4 := by
  rw [Covered] at h
  omega

/-- The bounds test lets pass what is not covered, and the registers are read. -/
theorem iteration_of_not_covered {m : InstMem} {maxPC : ℕ} {cpu : CPU} {b : Bool}
    (hno : ¬Covered maxPC t.cpu.nextPC) (hc : t.cpu.cycle m = some (cpu, b)) :
    iteration m maxPC t = some (⟨cpu, cpu.readRegister 10, cpu.readRegister 11⟩, b) := by
  have hin : ¬maxPC < t.cpu.nextPC.toNat := fun h => hno (.inr h)
  rw [iteration_of_cycle maxPC hc, if_neg hin]

/-- What a word leaves in `x10` and `x11` is printed. -/
theorem prints_of_ends (hno : ¬Covered file.length t.cpu.nextPC) {w : BitVec 32}
    (hw : Completes file t.cpu.nextPC.toNat w) (h : Ends t w r) : Prints file t r := by
  have hpast := past_of_not_covered hno
  obtain ⟨hlt, cpu, b, hx, hnext, rfl⟩ := h
  have hf : t.cpu.updateCurrentFromNext.fetch (loaded file (wordAt t.cpu.nextPC.toNat w)) =
    some w := fetch_wordAt rfl hlt hw
  have hc : t.cpu.cycle (loaded file (wordAt t.cpu.nextPC.toNat w)) = some (cpu, b) := by
    rw [CPU.cycle, hf]
    exact hx
  have hi := iteration_of_not_covered hno hc
  cases b with
  | false => exact ⟨_, 1, simulate_last hi 0⟩
  | true =>
    -- zeros are fetched then, and the bounds test breaks
    obtain ⟨hpc, hlt'⟩ := hnext rfl
    have hzero : ∀ a : Fin 4096, t.cpu.nextPC.toNat + 4 ≤ a → (a : ℕ) < t.cpu.nextPC.toNat + 4 + 4 →
        loaded file (wordAt t.cpu.nextPC.toNat w) a = 0 := by
      intro a ha _
      rw [loaded_of_ge (by omega), wordAt, if_neg (by omega)]
    have hi' := iteration_of_cycle (s := ⟨cpu, cpu.readRegister 10, cpu.readRegister 11⟩)
      file.length (cycle_zeros hpc hlt' hzero)
    rw [if_pos (hpc ▸ hpast)] at hi'
    exact ⟨_, 2, (simulate_next hi 1).trans (simulate_last hi' 0)⟩

/-- And where no word jumps, nothing else is. -/
theorem ends_of_prints (hno : ¬Covered file.length t.cpu.nextPC) (hs : Straight file t)
    (h : Prints file t r) : ∃ w, Completes file t.cpu.nextPC.toNat w ∧ Ends t w r := by
  have hpast := past_of_not_covered hno
  obtain ⟨uninit, n, hn⟩ := h
  cases n with
  | zero => cases hn
  | succ n =>
    obtain ⟨_, _, hfirst⟩ := iteration_of_simulate hn
    obtain ⟨⟨cpu, b⟩, hc, -⟩ := Option.map_eq_some_iff.mp hfirst
    obtain ⟨w, hf, hx⟩ := Option.bind_eq_some_iff.mp hc
    obtain ⟨hlt, hw⟩ := completes_of_fetch hf
    have hi := iteration_of_not_covered hno hc
    cases b with
    | false =>
      rw [simulate_last hi] at hn
      cases hn
      exact ⟨w, hw, hlt, cpu, false, hx, fun h => absurd h Bool.false_ne_true, rfl⟩
    | true =>
      have hpc : cpu.nextPC.toNat = t.cpu.nextPC.toNat + 4 := hs w cpu hw hx
      rw [simulate_next hi] at hn
      cases n with
      | zero => cases hn
      | succ n =>
        -- the word behind is fetched, and the bounds test breaks
        obtain ⟨u, d, hu⟩ := iteration_of_simulate hn
        obtain ⟨⟨_, _⟩, hc', -⟩ := Option.map_eq_some_iff.mp hu
        obtain ⟨_, hf', -⟩ := Option.bind_eq_some_iff.mp hc'
        have hlt' : cpu.nextPC.toNat + 4 ≤ 4096 := (completes_of_fetch hf').1
        obtain ⟨rfl, h0, h1⟩ := iteration_outside (hpc ▸ hpast) hu
        rw [simulate_last hu, h0, h1] at hn
        cases hn
        exact ⟨w, hw, hlt, cpu, true, hx, fun _ => ⟨hpc, by omega⟩, rfl⟩

/-- The opcode is in the first byte. -/
theorem opcode_of_completes {pc : ℕ} {w x : BitVec 32} (hw : Completes file pc w)
    (hx : file[pc]? = some x) : (CPU.decode w).opcode = (CPU.decode x).opcode := by
  have hbyte : w.setWidth 8 = x.setWidth 8 := by
    rw [BitVec.setWidth_eq_extractLsb' (by decide)]
    exact hw 0 (by decide) x hx
  simp only [CPU.decode, BitVec.setWidth_and, hbyte]

/-- Where the loaded byte says that the word is no branch and no `jalr`, it does not jump. -/
theorem straight_of_opcode (hlt : t.cpu.nextPC.toNat + 4 < 2 ^ 32) {x : BitVec 32}
    (hx : file[t.cpu.nextPC.toNat]? = some x) (hb : (CPU.decode x).opcode ≠ 0x63)
    (hj : (CPU.decode x).opcode ≠ 0x67) : Straight file t := by
  intro w cpu hw hexec
  have hop := opcode_of_completes hw hx
  rw [CPU.execute_straight _ (hop ▸ hb) (hop ▸ hj) hexec, BitVec.toNat_setWidth_of_le (by decide)]
  exact CPU.pcPlus4_toNat _ rfl hlt

/-- At the end of the file zeros leave `x10` as it is, and `addi x10, x10, 1` does not. -/
theorem ends_at_end (hpc : t.cpu.nextPC.toNat = file.length) (hlt : file.length + 8 ≤ 4096) :
    ∃ w w' r r', Completes file t.cpu.nextPC.toNat w ∧ Completes file t.cpu.nextPC.toNat w' ∧
      Ends t w r ∧ Ends t w' r' ∧ r ≠ r' := by
  have hw : ∀ w, Completes file t.cpu.nextPC.toNat w := by
    intro w i hi x hx
    rw [List.getElem?_eq_none (by omega)] at hx
    cases hx
  have hzeros : Ends t 0 (t.cpu.readRegister 10, t.cpu.readRegister 11) :=
    ⟨by omega, t.cpu.updateCurrentFromNext, false, CPU.execute_invalid _ rfl,
      fun h => absurd h Bool.false_ne_true, rfl⟩
  have hc : setControlSignals (CPU.decode 0x00150513).opcode =
    { regWrite := true, aluSrc := true, aluOp := .func } := rfl
  have hrd : (CPU.decode 0x00150513).rd = 10 := by decide
  have hrs1 : (CPU.decode 0x00150513).rs1 = 10 := by decide
  have himm : (CPU.decode 0x00150513).immediate = 1 := by decide
  have hx := CPU.execute_alu t.cpu.updateCurrentFromNext hc (show _ = ALUOperation.add from rfl)
    (by decide)
  rw [hrd, hrs1, himm] at hx
  have hnext : t.cpu.updateCurrentFromNext.pcPlus4.toNat = t.cpu.nextPC.toNat + 4 :=
    CPU.pcPlus4_toNat _ rfl (by omega)
  refine ⟨0, 0x00150513, _, _, hw 0, hw _, hzeros, ⟨by omega, _, true, hx, fun _ => ⟨?_, by omega⟩,
    rfl⟩, fun he => ?_⟩
  · rw [← hnext]
    exact BitVec.toNat_setWidth_of_le (by decide)
  · have h10 := congrArg Prod.fst he
    simp [CPU.left, CPU.updateCurrentFromNext, CPU.readRegister, RegFile.write, RegFile.read,
      compute, mux2] at h10

/-- **Where no word at the frontier jumps**, one `execute` of every word with the loaded bytes
    decides whether the output depends on the bytes behind the file. A run that comes to the end
    of the file itself always makes it so. -/
theorem independent_iff (hlen : file.length ≤ 4096)
    (hs : ∀ t, Frontier file t → Straight file t ∨
      t.cpu.nextPC.toNat = file.length ∧ file.length + 8 ≤ 4096) :
    Independent file ↔ ∀ t, Frontier file t → ∀ w w' r r', Completes file t.cpu.nextPC.toNat w →
      Completes file t.cpu.nextPC.toNat w' → Ends t w r → Ends t w' r' → r = r' := by
  rw [independent_iff_frontier hlen]
  constructor
  · intro h t ht w w' r r' hw hw' he he'
    have ⟨_, _, _, hno, _⟩ := ht
    exact h t ht r r' (prints_of_ends hno hw he) (prints_of_ends hno hw' he')
  · intro h t ht r r' hr hr'
    have ⟨_, _, _, hno, _⟩ := ht
    rcases hs t ht with hs | ⟨hpc, hlt⟩
    · obtain ⟨w, hw, he⟩ := ends_of_prints hno hs hr
      obtain ⟨w', hw', he'⟩ := ends_of_prints hno hs hr'
      exact h t ht w w' r r' hw hw' he he'
    · obtain ⟨w, w', r, r', hw, hw', he, he', hne⟩ := ends_at_end hpc hlt
      exact absurd (h t ht w w' r r' hw hw' he he') hne

/-- A frontier whose opcode is turned down makes no difference, whatever the rest of the word. -/
theorem independent_of_turned_down (hlen : file.length ≤ 4096)
    (hx : ∀ t, Frontier file t → ∃ x, file[t.cpu.nextPC.toNat]? = some x ∧
      (setControlSignals (CPU.decode x).opcode).aluOp = .invalid) : Independent file := by
  refine (independent_iff hlen fun t ht => .inl ?_).mpr ?_
  · obtain ⟨x, hx, hinv⟩ := hx t ht
    have hlt := (List.getElem?_eq_some_iff.mp hx).1
    refine straight_of_opcode (by omega) hx ?_ ?_ <;>
      exact fun hop => absurd (hop ▸ hinv) (by decide)
  · intro t ht w w' r r' hw hw' he he'
    obtain ⟨x, hx, hinv⟩ := hx t ht
    have hends : ∀ w r, Completes file t.cpu.nextPC.toNat w → Ends t w r →
        r = (t.cpu.readRegister 10, t.cpu.readRegister 11) := by
      rintro w r hw ⟨-, cpu, b, hexec, -, rfl⟩
      rw [CPU.execute_invalid _ (by rw [opcode_of_completes hw hx, hinv]; rfl)] at hexec
      cases hexec
      rfl
    rw [hends w r hw he, hends w' r' hw' he']

end Cpusim
