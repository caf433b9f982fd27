import Ece116c.Cpusim.Independence
import Ece116c.Cpusim.Reject
import Ece116c.Lib.Rv32iLogic

/-! Programs on the processor: what a triple of the instruction set says about a file is what
    `main` prints for it. The bundled programs copy bytes to words in a loop. -/

namespace Cpusim

open Rv32i Hoare

/-- The bytes of the file, as the loader narrows them. -/
def bytes (file : List (BitVec 32)) : List (BitVec 8) := file.map (BitVec.setWidth 8)

/-- The word at the address is turned down; past the file it is what `instMem` held before. -/
def TurnedDown (instMem : InstMem) (pc : BitVec 32) : Prop :=
  ∃ w, Rv32i.fetch (List.ofFn instMem) pc = some w ∧ ¬Accepted w

/-! ### A run of the simulation loop -/

section Loop

variable {file : List (BitVec 32)} {uninit : InstMem}

theorem loaded_bytes (a : Fin 4096) (b : BitVec 8) (h : (bytes file)[(a : ℕ)]? = some b) :
    loaded file uninit a = b := by
  rw [bytes, List.getElem?_map] at h
  rw [loaded, h, Option.getD_some]

/-- Between iterations `a0` and `a1` are the registers. -/
structure SimRep (t : Sim) (s : State) : Prop where
  rep : Rep t.cpu s
  a0 : t.a0 = s.regs.get 10
  a1 : t.a1 = s.regs.get 11

theorem simRep_init : SimRep Sim.init State.init := ⟨rep_init, rfl, rfl⟩

theorem Rep.readRegister {cpu : CPU} {s : State} (h : Rep cpu s) (i : BitVec 5) :
    cpu.readRegister (i.setWidth 8) = s.regs.get i := by
  rw [CPU.readRegister, read_register, h.regs]

/-- The whole word lies inside the code. -/
theorem fetch_lt {code : List (BitVec 8)} {pc w : BitVec 32}
    (h : Rv32i.fetch code pc = some w) : pc.toNat + 3 < code.length := by
  simp only [Rv32i.fetch, Option.bind_eq_bind, Option.bind_eq_some_iff] at h
  obtain ⟨-, -, -, -, -, -, b3, h3, -⟩ := h
  exact (List.getElem?_eq_some_iff.mp h3).1

theorem Rep.nextPC_toNat {cpu : CPU} {s : State} (h : Rep cpu s) :
    cpu.nextPC.toNat = s.pc.toNat := by
  rw [h.pc, BitVec.toNat_setWidth_of_le (by decide)]

/-- A step of the instruction set is an iteration that goes on. -/
theorem iteration_step (hlen : file.length ≤ 4096) {t : Sim} {s s' : State} (h : SimRep t s)
    (hstep : Step (bytes file) memorySize Supported s s') :
    ∃ t', iteration (loaded file uninit) file.length t = some (t', true) ∧ SimRep t' s' := by
  obtain ⟨i, hP, hf, hb, rfl⟩ := hstep
  obtain ⟨cpu', hx, hr⟩ := execute_exec h.rep.update hP hb
  have hfetch := fetch_eq (@loaded_bytes file uninit) (by rwa [bytes, List.length_map])
    h.rep.update.pc hf
  have hcycle : t.cpu.cycle (loaded file uninit) = some (cpu', true) := by
    rw [CPU.cycle, hfetch, Option.bind_some, hx]
  have hin : ¬file.length < t.cpu.nextPC.toNat := by
    have hlt := fetch_lt hf
    rw [bytes, List.length_map] at hlt
    rw [h.rep.nextPC_toNat]
    omega
  refine ⟨⟨cpu', cpu'.readRegister 10, cpu'.readRegister 11⟩, ?_, hr, hr.readRegister 10,
    hr.readRegister 11⟩
  rw [iteration_of_cycle _ hcycle, if_neg hin]

/-- So a run of it is a run of the loop. -/
theorem reach_steps (hlen : file.length ≤ 4096) {n : ℕ} {t : Sim} {s s' : State}
    (hs : Steps (bytes file) memorySize Supported n s s') (h : SimRep t s) :
    ∃ t', reach (loaded file uninit) file.length n t = some t' ∧ SimRep t' s' := by
  induction hs with
  | zero s => exact ⟨t, rfl, h⟩
  | succ hsteps i hP hf hb ih =>
    obtain ⟨t', ht', hr'⟩ := ih h
    obtain ⟨t'', hit, hr''⟩ := iteration_step hlen hr' ⟨i, hP, hf, hb, rfl⟩
    refine ⟨t'', ?_, hr''⟩
    rw [reach_add, ht', Option.bind_some, reach, hit]
    rfl

/-- The last iteration leaves `a0` and `a1`, whether the bounds test or the flag ends it. -/
theorem simulate_turned {t : Sim} {s : State} (h : SimRep t s)
    (hdown : TurnedDown (loaded file uninit) s.pc) (maxPC n : ℕ) :
    simulate (loaded file uninit) maxPC (n + 1) t = some (s.regs.get 10, s.regs.get 11) := by
  obtain ⟨w, hw, hacc⟩ := hdown
  have hcode : ∀ (a : Fin 4096) b, (List.ofFn (loaded file uninit))[(a : ℕ)]? = some b →
      loaded file uninit a = b := by
    intro a b hb
    rw [List.getElem?_ofFn, dif_pos a.isLt] at hb
    exact Option.some.inj hb
  have hfetch := fetch_eq hcode (by rw [List.length_ofFn]) h.rep.update.pc hw
  have hinvalid : aluOperation (CPU.decode w) = .invalid := by
    rwa [← not_ne_iff, aluOperation_decode]
  have hcycle : t.cpu.cycle (loaded file uninit) = some (t.cpu.updateCurrentFromNext, false) := by
    rw [CPU.cycle, hfetch, Option.bind_some, CPU.execute_invalid _ hinvalid]
  have hrep : Rep t.cpu.updateCurrentFromNext s := ⟨h.rep.regs, h.rep.mem, h.rep.pc⟩
  have h10 := hrep.readRegister 10
  have h11 := hrep.readRegister 11
  have hit := iteration_of_cycle maxPC hcycle
  split_ifs at hit with hmax
  · rw [simulate_last hit, h.a0, h.a1]
  · rw [simulate_last hit]
    exact congrArg some (Prod.ext h10 h11)

/-- A loop that goes on has nothing to print yet. -/
theorem simulate_of_reach {m : InstMem} {maxPC n : ℕ} {t u : Sim}
    (h : reach m maxPC n t = some u) : simulate m maxPC n t = none :=
  simulate_reach h 0

/-- `main` prints what a run of the instruction set ends with. -/
theorem main_of_steps (hlen : file.length ≤ 4096) {n : ℕ} {s : State}
    (hs : Steps (bytes file) memorySize Supported n State.init s)
    (hdown : TurnedDown (loaded file uninit) s.pc) {fuel : ℕ} (hfuel : n < fuel) :
    main file uninit fuel = some (s.regs.get 10, s.regs.get 11) := by
  obtain ⟨t, ht, hr⟩ := @reach_steps file uninit hlen _ _ _ _ hs simRep_init
  obtain ⟨k, rfl⟩ : ∃ k, fuel = n + (k + 1) := ⟨fuel - n - 1, by omega⟩
  rw [main_eq hlen, simulate_reach ht, simulate_turned hr hdown]

/-- While the instruction set can go on, `main` has not ended. -/
theorem main_of_running (hlen : file.length ≤ 4096) {n : ℕ} {s : State}
    (hs : Steps (bytes file) memorySize Supported n State.init s) :
    main file uninit n = none := by
  obtain ⟨t, ht, -⟩ := @reach_steps file uninit hlen _ _ _ _ hs simRep_init
  rw [main_eq hlen, simulate_of_reach ht]

/-- A program that never faults: whatever state a run comes to, the word there is turned down or
    the instruction set goes on. -/
def Tame (file : List (BitVec 32)) (uninit : InstMem) : Prop :=
  ∀ n s, Steps (bytes file) memorySize Supported n State.init s →
    TurnedDown (loaded file uninit) s.pc ∨ ∃ s', Step (bytes file) memorySize Supported s s'

/-- Within `n` steps such a program is turned down, or it takes all of them. -/
theorem Tame.run (h : Tame file uninit) (n : ℕ) :
    (∃ s, Steps (bytes file) memorySize Supported n State.init s) ∨
      ∃ k s, k < n ∧ Steps (bytes file) memorySize Supported k State.init s ∧
        TurnedDown (loaded file uninit) s.pc := by
  induction n with
  | zero => exact .inl ⟨_, .zero _⟩
  | succ n ih =>
    rcases ih with ⟨s, hs⟩ | ⟨k, s, hk, hs, hdown⟩
    · rcases h n s hs with hdown | ⟨s', i, hP, hf, hb, rfl⟩
      · exact .inr ⟨n, s, Nat.lt_succ_self n, hs, hdown⟩
      · exact .inl ⟨_, .succ hs i hP hf hb⟩
    · exact .inr ⟨k, s, Nat.lt_succ_of_lt hk, hs, hdown⟩

end Loop

/-- **What `main` prints.** Prove of a file of at most 4096 bytes that the instruction set takes it
    from the zero state to one with `Q`, and that the word at a program counter with `Q` is turned
    down: then `main` ends, and the pair it prints is `x10` and `x11` of a state with `Q`. -/
theorem main_of_triple {file : List (BitVec 32)} (hlen : file.length ≤ 4096) (uninit : InstMem)
    {Q : State → Prop}
    (h : Triple (Step (bytes file) memorySize Supported) (fun s => s = State.init) Q)
    (hend : ∀ s, Q s → TurnedDown (loaded file uninit) s.pc) :
    ∃ s n, Q s ∧ ∀ fuel, n < fuel →
      main file uninit fuel = some (s.regs.get 10, s.regs.get 11) := by
  obtain ⟨s, hrun, hQ⟩ := h State.init rfl
  obtain ⟨n, hsteps⟩ := exists_steps hrun
  exact ⟨s, n, hQ, fun fuel hfuel => main_of_steps hlen hsteps (hend s hQ) hfuel⟩

/-- `addi a0, x0, 5` and an `ecall`, whose opcode the controller does not know. -/
def addFile : List (BitVec 32) := [0x13, 0x05, 0x50, 0x00, 0x73, 0x00, 0x00, 0x00]

theorem main_of_triple_add : ∃ s n, (s = (Instr.addi 10 0 5).exec State.init) ∧
    ∀ fuel, n < fuel → main addFile (fun _ => 0) fuel = some (s.regs.get 10, s.regs.get 11) := by
  refine main_of_triple (by decide) (fun _ => 0) ?_ ?_
  · rintro _ rfl
    exact ⟨_, .single ⟨.addi 10 0 5, trivial, by decide, trivial, rfl⟩, rfl⟩
  · rintro _ rfl
    refine ⟨0x00000073, ?_, ?_⟩
    · decide +kernel
    · simp [Accepted, AcceptedAt]

/-- **`main` ends as the program does.** For a program that never faults, `main` prints a pair if
    and only if the instruction set comes to a state with that `x10` and `x11` where the word is
    turned down; when there is no such state the loop goes on forever. -/
theorem main_iff {file : List (BitVec 32)} (hlen : file.length ≤ 4096) (uninit : InstMem)
    (h : Tame file uninit) :
    (∀ r, (∃ fuel, main file uninit fuel = some r) ↔
      ∃ n s, Steps (bytes file) memorySize Supported n State.init s ∧
        TurnedDown (loaded file uninit) s.pc ∧ r = (s.regs.get 10, s.regs.get 11)) ∧
    ((¬∃ n s, Steps (bytes file) memorySize Supported n State.init s ∧
        TurnedDown (loaded file uninit) s.pc) → ∀ n, ∃ t, mainState file uninit n = some t) := by
  refine ⟨fun r => ⟨?_, ?_⟩, fun hno n => ?_⟩
  · rintro ⟨fuel, hmain⟩
    rcases h.run fuel with ⟨s, hs⟩ | ⟨k, s, hk, hs, hdown⟩
    · rw [main_of_running hlen hs] at hmain
      cases hmain
    · rw [main_of_steps hlen hs hdown hk] at hmain
      exact ⟨k, s, hs, hdown, (Option.some.inj hmain).symm⟩
  · rintro ⟨n, s, hs, hdown, rfl⟩
    exact ⟨n + 1, main_of_steps hlen hs hdown (Nat.lt_succ_self n)⟩
  · rcases h.run n with ⟨s, hs⟩ | ⟨k, s, -, hs, hdown⟩
    · obtain ⟨t, ht, -⟩ := @reach_steps file uninit hlen _ _ _ _ hs simRep_init
      exact ⟨t, (mainState_eq hlen n).trans ht⟩
    · exact absurd ⟨k, s, hs, hdown⟩ hno

/-- Where the `addi` and the `bne` of `loopFile` leave the machine. -/
def Looping (s : State) : Prop := s.pc = 0 ∨ s.pc = 4 ∧ s.regs.get 10 = -1

theorem Looping.step {s : State} (h : Looping s) :
    ∃ i, Supported i ∧ Rv32i.fetch (bytes loopFile) s.pc = some i.encode ∧
      i.InBounds memorySize s ∧ Looping (i.exec s) := by
  rcases h with hpc | ⟨hpc, h10⟩
  · refine ⟨.addi 10 0 (-1), trivial, ?_, trivial, .inr ⟨?_, ?_⟩⟩
    · rw [hpc]
      decide
    · simp [Instr.exec, hpc]
    · have hzero : s.regs.get 0#5 = 0 := s.regs.zero
      simp [Instr.exec, hzero]
  · refine ⟨.bne 10 0 (-2), trivial, ?_, trivial, .inl ?_⟩
    · rw [hpc]
      decide
    · have hne : s.regs.get 10 ≠ s.regs.get 0 := by
        rw [h10, s.regs.zero]
        decide
      rw [Instr.exec, if_pos hne, hpc]
      rfl

theorem Looping.keeps {s t : State} (h : Looping s)
    (hstep : Step (bytes loopFile) memorySize Supported s t) : Looping t := by
  obtain ⟨i, -, hf, -, hi⟩ := h.step
  rwa [hstep.eq_exec hf]

theorem looping_of_steps {n : ℕ} {s : State}
    (hs : Steps (bytes loopFile) memorySize Supported n State.init s) : Looping s :=
  hs.keeps (fun _ _ h hstep => h.keeps hstep) (.inl rfl)

/-- A word that the controller knows is not turned down. -/
theorem not_turnedDown {m : InstMem} {pc w : BitVec 32}
    (hw : Rv32i.fetch (List.ofFn m) pc = some w) (hacc : Accepted w) : ¬TurnedDown m pc := by
  rintro ⟨v, hv, hno⟩
  rw [hw, Option.some.injEq] at hv
  exact hno (hv ▸ hacc)

theorem Looping.not_turnedDown {s : State} (h : Looping s) :
    ¬TurnedDown (loaded loopFile fun _ => 0) s.pc := by
  rcases h with hpc | ⟨hpc, -⟩ <;> rw [hpc]
  · refine Cpusim.not_turnedDown (w := 0xFFF00513) (by decide +kernel) ?_
    simp [Accepted, AcceptedAt]
  · refine Cpusim.not_turnedDown (w := 0xFE051EE3) (by decide +kernel) ?_
    simp [Accepted, AcceptedAt]

/-- The loop is never left, and `main` prints nothing. -/
theorem main_iff_loop :
    (∀ r, ¬∃ fuel, main loopFile (fun _ => 0) fuel = some r) ∧
      ∀ n, ∃ t, mainState loopFile (fun _ => 0) n = some t := by
  have htame : Tame loopFile fun _ => 0 := by
    intro n s hs
    obtain ⟨i, hP, hf, hb, -⟩ := (looping_of_steps hs).step
    exact .inr ⟨_, i, hP, hf, hb, rfl⟩
  obtain ⟨hpairs, hforever⟩ := main_iff (by decide) (fun _ => 0) htame
  refine ⟨fun r hr => ?_, hforever ?_⟩
  · obtain ⟨n, s, hs, hdown, -⟩ := (hpairs r).mp hr
    exact (looping_of_steps hs).not_turnedDown hdown
  · rintro ⟨n, s, hs, hdown⟩
    exact (looping_of_steps hs).not_turnedDown hdown

/-! ### The copy loop of the bundled programs -/

/-- `lbu x29, 0(x9)`, `sw x29, 0(x8)`, the three increments, and `bne x7, x28` back. -/
def copyLoop : List Instr :=
  [.lbu 29 9 0, .sw 8 29 0, .addi 9 9 1, .addi 8 8 4, .addi 7 7 1, .bne 7 28 (-10)]

/-- The first `j` bytes at `src`, each a word at `dst`. -/
def copied (mem : BitVec 32 → BitVec 8) (src dst : BitVec 32) (j : ℕ) (x : BitVec 32) : BitVec 8 :=
  if (x - dst).toNat < 4 * j then
    if (x - dst).toNat % 4 = 0 then mem (src + BitVec.ofNat 32 ((x - dst).toNat / 4)) else 0
  else mem x

/-- `n` bytes at `src` and `n` words at `dst`, inside the memory and apart. -/
structure Regions (src dst : BitVec 32) (n : ℕ) : Prop where
  src_le : src.toNat + n ≤ memorySize
  dst_le : dst.toNat + 4 * n ≤ memorySize
  apart : src.toNat + n ≤ dst.toNat ∨ dst.toNat + 4 * n ≤ src.toNat

/-- The loop with `k` bytes to go. -/
structure Copying (mem : BitVec 32 → BitVec 8) (src dst : BitVec 32) (n : ℕ) (a : BitVec 32)
    (k : ℕ) (s : State) : Prop where
  le : k ≤ n
  pc : s.pc = if k = 0 then a + 24 else a
  source : s.regs.get 9#5 = src + BitVec.ofNat 32 (n - k)
  target : s.regs.get 8#5 = dst + BitVec.ofNat 32 (4 * (n - k))
  left : s.regs.get 28#5 - s.regs.get 7#5 = BitVec.ofNat 32 k
  memory : s.mem = copied mem src dst (n - k)

section Copy

variable {mem : BitVec 32 → BitVec 8} {src dst : BitVec 32} {n : ℕ}

theorem toNat_add_ofNat {x : BitVec 32} {j : ℕ} (h : x.toNat + j < 2 ^ 32) :
    (x + BitVec.ofNat 32 j).toNat = x.toNat + j := by
  rw [BitVec.toNat_add, BitVec.toNat_ofNat, Nat.add_mod_mod, Nat.mod_eq_of_lt h]

/-- The bytes of a byte that was widened. -/
theorem extract_widened (b : BitVec 8) {r : ℕ} (hr : r < 4) :
    (b.setWidth 32).extractLsb' (8 * r) 8 = if r = 0 then b else 0 := by
  have hcases : r = 0 ∨ r = 1 ∨ r = 2 ∨ r = 3 := by omega
  revert b
  rcases hcases with rfl | rfl | rfl | rfl <;> decide

/-- What is still to be copied has not been written over. -/
theorem copied_src (h : Regions src dst n) {j : ℕ} (hj : j < n) :
    copied mem src dst j (src + BitVec.ofNat 32 j) = mem (src + BitVec.ofNat 32 j) := by
  have hsrc := h.src_le
  have hdst := h.dst_le
  have hx : (src + BitVec.ofNat 32 j).toNat = src.toNat + j :=
    toNat_add_ofNat (by rw [memorySize] at hsrc; omega)
  refine if_neg ?_
  rw [BitVec.toNat_sub, hx, memorySize] at *
  rcases h.apart with hap | hap <;> omega

/-- One store more. -/
theorem store32_copied (h : Regions src dst n) {j : ℕ} (hj : j < n) :
    store32 (copied mem src dst j) (dst + BitVec.ofNat 32 (4 * j))
      ((mem (src + BitVec.ofNat 32 j)).setWidth 32) = copied mem src dst (j + 1) := by
  funext x
  have hdst := h.dst_le
  rw [memorySize] at hdst
  have hoff : (x - (dst + BitVec.ofNat 32 (4 * j))).toNat =
      ((x - dst).toNat + (2 ^ 32 - 4 * j)) % 2 ^ 32 := by
    rw [← sub_sub, BitVec.toNat_sub (x - dst), BitVec.toNat_ofNat,
      Nat.mod_eq_of_lt (by omega : 4 * j < 2 ^ 32), Nat.add_comm]
  have hlt : (x - dst).toNat < 2 ^ 32 := (x - dst).isLt
  rw [store32_apply, hoff, copied, copied]
  generalize (x - dst).toNat = e at *
  by_cases hbefore : e < 4 * j
  · have hout : ¬(e + (2 ^ 32 - 4 * j)) % 2 ^ 32 < 4 := by omega
    have hin : e < 4 * (j + 1) := by omega
    rw [if_neg hout, if_pos hbefore, if_pos hin]
  have hmod : (e + (2 ^ 32 - 4 * j)) % 2 ^ 32 = e - 4 * j := by omega
  rw [hmod, if_neg hbefore]
  by_cases hat : e - 4 * j < 4
  · have hin : e < 4 * (j + 1) := by omega
    rw [if_pos hat, if_pos hin, extract_widened _ hat]
    by_cases hz : e - 4 * j = 0
    · have hword : e % 4 = 0 := by omega
      rw [if_pos hz, if_pos hword, show e / 4 = j by omega]
    · have hword : ¬e % 4 = 0 := by omega
      rw [if_neg hz, if_neg hword]
  · have hout : ¬e < 4 * (j + 1) := by omega
    rw [if_neg hat, if_neg hout]

/-- One turn of the loop. -/
theorem copying_turn {code : List (BitVec 8)} {a : BitVec 32} (hcode : CodeAt code a copyLoop)
    (h : Regions src dst n) (k : ℕ) :
    Triple (Step code memorySize Supported) (Copying mem src dst n a (k + 1))
      (Copying mem src dst n a k) := by
  refine (triple_block hcode (by decide)).pre fun s hs => ?_
  obtain ⟨hle, hpc, hsource, htarget, hleft, hmem⟩ := hs
  obtain ⟨j, hj⟩ : ∃ j, n = j + (k + 1) := ⟨n - (k + 1), by omega⟩
  have hsrc := h.src_le
  have hdst := h.dst_le
  rw [memorySize] at hsrc hdst
  rw [show n - (k + 1) = j by omega] at hsource htarget hmem
  rw [if_neg (Nat.succ_ne_zero k)] at hpc
  have hread : (src + BitVec.ofNat 32 j).toNat = src.toNat + j := toNat_add_ofNat (by omega)
  have hwrite : (dst + BitVec.ofNat 32 (4 * j)).toNat = dst.toNat + 4 * j :=
    toNat_add_ofNat (by omega)
  -- the counter meets its limit after the last byte and not before
  have hlimit : s.regs.get 7#5 + 1#32 = s.regs.get 28#5 ↔ k = 0 := by
    have hk : BitVec.ofNat 32 (k + 1) = 1#32 ↔ k = 0 := by
      rw [← BitVec.toNat_inj, BitVec.toNat_ofNat, Nat.mod_eq_of_lt (by omega)]
      exact Nat.succ_inj
    rw [← hk, ← hleft, eq_comm, sub_eq_iff_eq_add, add_comm]
  refine ⟨hpc, trivial, ?_, trivial, ?_, trivial, trivial, trivial, trivial, trivial, trivial,
    trivial, trivial, by omega, ?_, ?_, ?_, ?_, ?_⟩
  · simp [Instr.InBounds, State.addr, hsource, hread, memorySize]
    omega
  · simp [Instr.InBounds, Instr.exec, State.addr, htarget, hwrite, memorySize]
    omega
  · simp [Instr.exec, hlimit, hpc, add_assoc]
  · simp [Instr.exec, hsource, show n - k = j + 1 by omega, BitVec.ofNat_add, add_assoc]
  · simp [Instr.exec, htarget, show n - k = j + 1 by omega, BitVec.ofNat_add, add_assoc, mul_add]
  · simp [Instr.exec, ← sub_sub, hleft, BitVec.ofNat_add]
  · have hstore := @store32_copied mem src dst n h j (by omega)
    simp [Instr.exec, State.addr, hsource, htarget, hmem, show n - k = j + 1 by omega,
      copied_src h (by omega : j < n), hstore]

/-- Byte `r` of word `i` of the copy. -/
theorem copied_word (h : Regions src dst n) {i r : ℕ} (hi : i < n) (hr : r < 4) :
    copied mem src dst n (dst + BitVec.ofNat 32 (4 * i) + BitVec.ofNat 32 r) =
      if r = 0 then mem (src + BitVec.ofNat 32 i) else 0 := by
  have hdst := h.dst_le
  rw [memorySize] at hdst
  have hoff : (dst + BitVec.ofNat 32 (4 * i) + BitVec.ofNat 32 r - dst).toNat = 4 * i + r := by
    rw [add_assoc, add_sub_cancel_left, ← BitVec.ofNat_add, BitVec.toNat_ofNat]
    exact Nat.mod_eq_of_lt (by omega)
  have hmod : (4 * i + r) % 4 = r := by omega
  have hdiv : (4 * i + r) / 4 = i := by omega
  rw [copied, hoff, if_pos (by omega), hmod, hdiv]

theorem load32_copied (h : Regions src dst n) {i : ℕ} (hi : i < n) :
    load32 (copied mem src dst n) (dst + BitVec.ofNat 32 (4 * i)) =
      (mem (src + BitVec.ofNat 32 i)).setWidth 32 := by
  have hword : ∀ b : BitVec 8, (0#8 ++ 0#8 ++ 0#8 ++ b : BitVec 32) = b.setWidth 32 := by decide
  have h0 := @copied_word mem src dst n h i 0 hi (by decide)
  have h1 := @copied_word mem src dst n h i 1 hi (by decide)
  have h2 := @copied_word mem src dst n h i 2 hi (by decide)
  have h3 := @copied_word mem src dst n h i 3 hi (by decide)
  rw [BitVec.add_zero] at h0
  rw [load32, h0, ← hword]
  exact congrArg₂ _ (congrArg₂ _ (congrArg₂ _ h3 h2) h1) rfl

end Copy

/-- **The copy loop of the bundled programs, on the processor.** Wherever a file of at most 4096
    bytes has the loop, and whatever the processor has done before: it turns `n` bytes into `n`
    words, which lie inside the data memory and apart, leaves every other byte of the memory and
    ends behind the `bne`. -/
theorem cycles_copyLoop {file : List (BitVec 32)} (hlen : file.length ≤ 4096) (uninit : InstMem)
    {a : BitVec 32} (hcode : CodeAt (bytes file) a copyLoop) {src dst : BitVec 32} {n : ℕ}
    (h : Regions src dst n) (hn : 0 < n) {cpu : CPU} (h0 : cpu.regFile.registers 0 = 0)
    (hpc : cpu.nextPC = a.setWidth 64) (hsrc : cpu.regFile.registers 9 = src)
    (hdst : cpu.regFile.registers 8 = dst)
    (hleft : cpu.regFile.registers 28 - cpu.regFile.registers 7 = BitVec.ofNat 32 n) :
    ∃ m cpu', CPU.cycles (loaded file uninit) m cpu = some cpu' ∧
      cpu'.nextPC = (a + 24).setWidth 64 ∧
      (∀ i < n, cpu'.memory.read (dst + BitVec.ofNat 32 (4 * i)) =
        some ((cpu.memory.memory (src + BitVec.ofNat 32 i)).setWidth 32)) ∧
      ∀ x : BitVec 32, 4 * n ≤ (x - dst).toNat → cpu'.memory.memory x = cpu.memory.memory x := by
  let s : State := ⟨⟨cpu.regFile.registers, h0⟩, cpu.memory.memory, a⟩
  have hstart : Copying s.mem src dst n a n s := by
    refine ⟨le_rfl, (if_neg hn.ne').symm, ?_, ?_, hleft, ?_⟩
    · rw [Nat.sub_self, BitVec.add_zero]
      exact hsrc
    · rw [Nat.sub_self, Nat.mul_zero, BitVec.add_zero]
      exact hdst
    · rw [Nat.sub_self]
      exact funext fun x => (if_neg (Nat.not_lt_zero _)).symm
  obtain ⟨t, hrun, ht⟩ := Triple.loop (fun k => @copying_turn s.mem src dst n _ a hcode h k) n s
    hstart
  obtain ⟨m, hsteps⟩ := exists_steps hrun
  obtain ⟨cpu', hcycles, hr⟩ := cycles_steps (@loaded_bytes file uninit)
    (by rwa [bytes, List.length_map]) hsteps (show Rep cpu s from ⟨rfl, rfl, hpc⟩)
  have hmem : cpu'.memory.memory = copied s.mem src dst n := by rw [hr.mem, ht.memory, Nat.sub_zero]
  refine ⟨m, cpu', hcycles, ?_, fun i hi => ?_, fun x hx => ?_⟩
  · rw [hr.pc, ht.pc, if_pos rfl]
  · have hle := h.dst_le
    have hat : (dst + BitVec.ofNat 32 (4 * i)).toNat = dst.toNat + 4 * i :=
      toNat_add_ofNat (by rw [memorySize] at hle; omega)
    rw [read_word (by omega), hmem, load32_copied h hi]
  · rw [hmem]
    exact if_neg (Nat.not_lt.mpr hx)

/-- The loop alone. -/
def copyFile : List (BitVec 32) :=
  [0x83, 0xCE, 0x04, 0x00, 0x23, 0x20, 0xD4, 0x01, 0x93, 0x84, 0x14, 0x00,
    0x13, 0x04, 0x44, 0x00, 0x93, 0x83, 0x13, 0x00, 0xE3, 0x96, 0xC3, 0xFF]

def copyCpu : CPU :=
  ⟨⟨fun i => if i = 8 then 64 else if i = 28 then 4 else 0⟩, ⟨fun a => a.setWidth 8⟩, 0, 0⟩

theorem cycles_copyLoop_four :
    ∃ m cpu', CPU.cycles (loaded copyFile fun _ => 0) m copyCpu = some cpu' ∧ cpu'.nextPC = 24 ∧
      cpu'.memory.read 76 = some 3 := by
  obtain ⟨m, cpu', hcycles, hpc, hread, -⟩ := @cycles_copyLoop copyFile (by decide) (fun _ => 0) 0
    (by decide) 0 64 4 ⟨by decide, by decide, by decide⟩ (by decide) copyCpu rfl rfl rfl rfl rfl
  exact ⟨m, cpu', hcycles, hpc, hread 3 (by decide)⟩

end Cpusim
