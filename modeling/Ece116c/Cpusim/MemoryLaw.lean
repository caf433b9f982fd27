import Ece116c.Cpusim.Refine
import Ece116c.Lib.Overwrite

/-! The law of the data memory: after any words written anywhere, over one another or not, a byte
    is the one that the last write over it put there. -/

namespace Cpusim

open Rv32i Bits

/-- `Memory::write` of an address and a word each, in turn. -/
def Memory.writes : List (BitVec 32 × BitVec 32) → Memory → Option Memory
  | [], m => some m
  | (address, data) :: ws, m => (m.write address data).bind (Memory.writes ws)

/-- The write `w` goes over address `a`. -/
def covers (w : BitVec 32 × BitVec 32) (a : BitVec 32) : Bool :=
  decide (w.1.toNat ≤ a.toNat ∧ a.toNat ≤ w.1.toNat + 3)

/-- The byte that it puts there, counted from the lowest. -/
def byteAt (w : BitVec 32 × BitVec 32) (a : BitVec 32) : BitVec 8 :=
  w.2.extractLsb' (8 * (a.toNat - w.1.toNat)) 8

/-- The byte of the last write over `a`, 0 if there is none. -/
def lastByte (ws : List (BitVec 32 × BitVec 32)) (a : BitVec 32) : BitVec 8 :=
  (Overwrite.last covers ws a).elim 0 fun w => byteAt w a

section Writes

variable {m : Memory} {a : BitVec 32} {ws : List (BitVec 32 × BitVec 32)}

/-- Shifts, masks and casts put the bytes of the word in place. -/
theorem write_covers {w : BitVec 32 × BitVec 32} (h : w.1.toNat + 3 < memorySize) :
    m.write w.1 w.2 = some ⟨Overwrite.write covers byteAt m.memory w⟩ := by
  have hstore : store32 m.memory w.1 w.2 = Overwrite.write covers byteAt m.memory w := by
    have hsize : memorySize = 131072 := rfl
    funext x
    rw [store32_apply, Overwrite.write, covers, byteAt]
    by_cases hc : w.1.toNat ≤ x.toNat ∧ x.toNat ≤ w.1.toNat + 3
    · have hsub : (x - w.1).toNat = x.toNat - w.1.toNat :=
        BitVec.toNat_sub_of_le (BitVec.le_def.mpr hc.1)
      rw [if_pos (decide_eq_true hc), hsub, if_pos (by omega)]
    · have hout : ¬ (x - w.1).toNat < 4 := by bv_omega
      rw [if_neg hout, if_neg (by simpa using hc)]
  rw [write_word (by omega), hstore]

theorem writes_eq (h : ∀ w ∈ ws, w.1.toNat + 3 < memorySize) :
    m.writes ws = some ⟨ws.foldl (Overwrite.write covers byteAt) m.memory⟩ := by
  induction ws generalizing m with
  | nil => rfl
  | cons w ws ih =>
    obtain ⟨hw, hws⟩ := List.forall_mem_cons.mp h
    have hone := write_covers (m := m) hw
    rw [Memory.writes, hone, Option.bind_some, ih hws]
    rfl

/-- Every byte of a fresh memory is 0. -/
theorem writes_init (h : ∀ w ∈ ws, w.1.toNat + 3 < memorySize) :
    Memory.init.writes ws = some ⟨lastByte ws⟩ := by
  have hlast : ws.foldl (Overwrite.write covers byteAt) Memory.init.memory = lastByte ws := by
    funext a
    exact Overwrite.foldl_write covers byteAt _ ws a
  rw [writes_eq h, hlast]

/-- The bytes of a word just written. -/
theorem read_write (d : BitVec 32) (h : a.toNat + 3 < memorySize) :
    ∃ m', m.write a d = some m' ∧ m'.read a = some d := by
  have hload : load32 (store32 m.memory a d) a = d := by
    have hoff : ∀ k : BitVec 32, k.toNat < 4 →
        store32 m.memory a d (a + k) = d.extractLsb' (8 * k.toNat) 8 := by
      intro k hk
      rw [store32_apply, add_sub_cancel_left, if_pos hk]
    have h0 := hoff 0 (by decide)
    rw [add_zero] at h0
    rw [load32, h0, hoff 1 (by decide), hoff 2 (by decide), hoff 3 (by decide)]
    exact bytes_join d
  refine ⟨_, write_word (by omega), ?_⟩
  rw [read_word (by omega), hload]

end Writes

/-- The data-memory law: after any words written inside the memory, `readByte` gives the byte of the
    last write over its address, `read` the word of four such bytes, the lowest first, and a word
    just written is read back. -/
theorem data_memory_law {ws : List (BitVec 32 × BitVec 32)}
    (h : ∀ w ∈ ws, w.1.toNat + 3 < memorySize) :
    ∃ m, Memory.init.writes ws = some m ∧
      (∀ a, a.toNat < memorySize → m.readByte a = some (lastByte ws a)) ∧
      (∀ a, a.toNat + 3 < memorySize → m.read a =
        some (lastByte ws (a + 3) ++ lastByte ws (a + 2) ++ lastByte ws (a + 1) ++
          lastByte ws a)) ∧
      ∀ a d, a.toNat + 3 < memorySize → ∃ m', m.write a d = some m' ∧ m'.read a = some d := by
  refine ⟨⟨lastByte ws⟩, writes_init h, fun a ha => ?_, fun a ha => ?_,
    fun a d ha => read_write d ha⟩
  · rw [Memory.readByte, if_pos ha]
  · rw [read_word (by omega), load32]

/-- Two words that share two bytes, at an odd address and with sign bits set. -/
theorem data_memory_law_overlap : ∃ m,
    Memory.init.writes [(0x1001, 0x80818283), (0x1003, 0xFFFEFDFC)] = some m ∧
      m.readByte 0x1002 = some 0x82 ∧ m.read 0x1001 = some 0xFDFC8283 := by
  have hin : ∀ w ∈ [((0x1001, 0x80818283) : BitVec 32 × BitVec 32), (0x1003, 0xFFFEFDFC)],
      w.1.toNat + 3 < memorySize := by simp [memorySize]
  obtain ⟨m, hm, hbyte, hword, -⟩ := data_memory_law hin
  exact ⟨m, hm, hbyte _ (by decide), hword _ (by decide)⟩

end Cpusim
