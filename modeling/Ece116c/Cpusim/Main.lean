import Ece116c.Cpusim.Machine
import Mathlib.Data.List.Basic

/-! `main` of `cpusim.cpp`: the loader and the simulation loop. `instMem` is a local array without
    an initializer, so what it holds before the loader runs is a parameter. -/

namespace Cpusim

/-- The loading loop from index `i` on; a token is the `int x` it was read into. -/
def load : List (BitVec 32) → ℕ → InstMem → Option (InstMem × ℕ)
  | [], i, instMem => some (instMem, i)
  | x :: xs, i, instMem =>
    if h : i < 4096 then load xs (i + 1) (Function.update instMem ⟨i, h⟩ (x.setWidth 8)) else none

/-- `myCPU`, `a0` and `a1`. -/
structure Sim where
  cpu : CPU
  a0 : BitVec 32
  a1 : BitVec 32

def Sim.init : Sim := ⟨CPU.init, 0, 0⟩

/-- One iteration of the simulation loop, and whether another follows. -/
def iteration (instMem : InstMem) (maxPC : ℕ) (s : Sim) : Option (Sim × Bool) :=
  (s.cpu.cycle instMem).map fun (cpu, done) =>
    if maxPC < cpu.readPC.toNat then (⟨cpu, s.a0, s.a1⟩, false)
    else (⟨cpu, cpu.readRegister 10, cpu.readRegister 11⟩, done)

/-- The loop for at most `fuel` iterations, and the pair it prints. -/
def simulate (instMem : InstMem) (maxPC : ℕ) : ℕ → Sim → Option (BitVec 32 × BitVec 32)
  | 0, _ => none
  | fuel + 1, s =>
    (iteration instMem maxPC s).bind fun (s, again) =>
      if again then simulate instMem maxPC fuel s else some (s.a0, s.a1)

/-- `main`: the pair printed for the tokens of a file, within `fuel` cycles. -/
def main (file : List (BitVec 32)) (uninit : InstMem) (fuel : ℕ) : Option (BitVec 32 × BitVec 32) :=
  (load file 0 uninit).bind fun (instMem, maxPC) => simulate instMem maxPC fuel Sim.init

/-! ### What the loader does -/

/-- `maxPC` is the number of tokens, and a cell is its token or what it was. -/
theorem load_eq {xs : List (BitVec 32)} {i : ℕ} {uninit : InstMem} (h : i + xs.length ≤ 4096) :
    ∃ instMem, load xs i uninit = some (instMem, i + xs.length) ∧
      ∀ a : Fin 4096, instMem a =
        if i ≤ a then ((xs[a - i]?).map (BitVec.setWidth 8)).getD (uninit a) else uninit a := by
  induction xs generalizing i uninit with
  | nil => exact ⟨uninit, rfl, fun a => by simp⟩
  | cons x xs ih =>
    rw [List.length_cons] at h
    have hi : i < 4096 := by omega
    obtain ⟨m, hm, hc⟩ := @ih (i + 1) (Function.update uninit ⟨i, hi⟩ (x.setWidth 8)) (by omega)
    refine ⟨m, ?_, fun a => ?_⟩
    · rw [load, dif_pos hi, hm, List.length_cons, Nat.add_assoc, Nat.add_comm 1]
    · rw [hc a]
      rcases Nat.lt_trichotomy i a with hlt | heq | hgt
      · have hne : a ≠ ⟨i, hi⟩ := fun he => by simp [he] at hlt
        obtain ⟨k, hk⟩ : ∃ k, (a : ℕ) - i = k + 1 := ⟨a - i - 1, by omega⟩
        rw [if_pos (by omega), if_pos (by omega), Function.update_of_ne hne, hk,
          List.getElem?_cons_succ, show (a : ℕ) - (i + 1) = k by omega]
      · have he : a = ⟨i, hi⟩ := Fin.ext heq.symm
        subst he
        simp
      · have hne : a ≠ ⟨i, hi⟩ := fun he => by simp [he] at hgt
        rw [if_neg (by omega), if_neg (by omega), Function.update_of_ne hne]

/-- The memory after the loader has run. -/
def loaded (file : List (BitVec 32)) (uninit : InstMem) : InstMem :=
  fun a => ((file[(a : ℕ)]?).map (BitVec.setWidth 8)).getD (uninit a)

section Loaded

variable {file : List (BitVec 32)} {uninit : InstMem}

theorem load_loaded (h : file.length ≤ 4096) :
    load file 0 uninit = some (loaded file uninit, file.length) := by
  obtain ⟨m, hl, hc⟩ := @load_eq file 0 uninit (by omega)
  have hm : m = loaded file uninit := funext fun a => by rw [hc a, if_pos (Nat.zero_le _)]; rfl
  rw [hl, hm, Nat.zero_add]

theorem main_eq (h : file.length ≤ 4096) (fuel : ℕ) :
    main file uninit fuel = simulate (loaded file uninit) file.length fuel Sim.init := by
  rw [main, load_loaded h]
  rfl

theorem loaded_of_lt {a : Fin 4096} (h : (a : ℕ) < file.length) :
    loaded file uninit a = (file[(a : ℕ)]).setWidth 8 := by
  rw [loaded, List.getElem?_eq_getElem h]
  rfl

theorem loaded_of_ge {a : Fin 4096} (h : file.length ≤ a) : loaded file uninit a = uninit a := by
  rw [loaded, List.getElem?_eq_none h]
  rfl

end Loaded

end Cpusim
