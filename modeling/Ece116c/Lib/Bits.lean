import Mathlib.Data.BitVec

/-! Words taken apart and put together the way C does it, by shifts, masks and `|`, in terms of
    slices and concatenation. -/

namespace Bits

variable {w m n : ℕ}

/-! ### Slices of concatenations -/

theorem slice_low {a : BitVec m} {b : BitVec n} : (a ++ b).extractLsb' 0 n = b :=
  BitVec.extractLsb'_append_eq_right

theorem slice_all {a : BitVec n} : a.extractLsb' 0 n = a := BitVec.extractLsb'_eq_self

/-- A slice above the low part is one of the high part. -/
theorem slice_skip {a : BitVec m} {b : BitVec n} {k l : ℕ} {v : BitVec l}
    (h : a.extractLsb' k l = v) : (a ++ b).extractLsb' (k + n) l = v := by
  rw [BitVec.extractLsb'_append_eq_of_le (Nat.le_add_left n k), Nat.add_sub_cancel, h]

/-! ### Widening -/

/-- Zero extension loses nothing. -/
theorem narrow_widen (x : BitVec n) (h : n ≤ w) : (x.setWidth w).setWidth n = x := by
  rw [BitVec.setWidth_setWidth_of_le _ h, BitVec.setWidth_eq]

theorem setWidth_inj {x y : BitVec n} (h : n ≤ w) : x.setWidth w = y.setWidth w ↔ x = y := by
  refine ⟨fun he => ?_, congrArg _⟩
  rw [← narrow_widen x h, he, narrow_widen y h]

/-- Nor does sign extension. -/
theorem narrow_signExtend (x : BitVec n) (h : n ≤ w) : (x.signExtend w).setWidth n = x := by
  ext i hi
  rw [BitVec.getElem_setWidth, BitVec.getLsbD_signExtend, if_pos hi, BitVec.getLsbD_eq_getElem hi]
  simp [show i < w by omega]

theorem signExtend_inj {x y : BitVec n} (h : n ≤ w) :
    x.signExtend w = y.signExtend w ↔ x = y := by
  refine ⟨fun he => ?_, congrArg _⟩
  rw [← narrow_signExtend x h, he, narrow_signExtend y h]

/-! ### Shifts and masks -/

/-- `(x >> k) & mask` is the slice of `n` bits at `k`. -/
theorem shift_mask (x : BitVec w) (k n : ℕ) {mask : BitVec w}
    (hm : mask = (BitVec.allOnes n).setWidth w) :
    (x >>> k) &&& mask = (x.extractLsb' k n).setWidth w := by
  subst hm
  ext i hi
  simp [Bool.and_comm]

/-- `x & mask` is the slice of the lowest `n` bits. -/
theorem low_mask (x : BitVec w) (n : ℕ) {mask : BitVec w}
    (hm : mask = (BitVec.allOnes n).setWidth w) :
    x &&& mask = (x.extractLsb' 0 n).setWidth w := by
  have h := shift_mask x 0 n hm
  rwa [BitVec.ushiftRight_zero] at h

/-- `(a << n) | b` is the concatenation when `b` has `n` bits. -/
theorem shift_or (a : BitVec m) (b : BitVec n) :
    (a.setWidth w <<< n) ||| b.setWidth w = (a ++ b).setWidth w := by
  ext i hi
  simp only [BitVec.getElem_or, BitVec.getElem_shiftLeft, BitVec.getElem_setWidth,
    BitVec.getLsbD_append]
  by_cases h : i < n
  · simp [h]
  · simp [h, BitVec.getLsbD_of_ge b i (Nat.le_of_not_lt h)]

/-- `x & ~1` is the greatest even number up to `x`. -/
theorem toNat_even (x : BitVec w) : (x &&& ~~~1#w).toNat = 2 * (x.toNat / 2) := by
  have h : x &&& ~~~1#w = (x >>> 1) <<< 1 := by
    ext i hi
    cases i with
    | zero => simp
    | succ i => simp [Nat.add_comm 1 i, BitVec.getLsbD_eq_getElem hi]
  have hx := x.isLt
  rw [h, BitVec.toNat_shiftLeft, BitVec.toNat_ushiftRight, Nat.shiftLeft_eq,
    Nat.shiftRight_eq_div_pow, Nat.pow_one, Nat.mod_eq_of_lt (by omega), Nat.mul_comm]

/-- `x & ((1 << n) - 1)` is the remainder. -/
theorem toNat_mask (x : BitVec w) {n : ℕ} (hn : n < w) :
    (x &&& ((1#w <<< n) - 1#w)).toNat = x.toNat % 2 ^ n := by
  have h1 : 1 % 2 ^ w = 1 := Nat.mod_eq_of_lt (Nat.one_lt_two_pow (by omega))
  have hpow : 2 ^ n < 2 ^ w := Nat.pow_lt_pow_right (by omega) hn
  have hpos := Nat.two_pow_pos n
  have hm : ((1#w <<< n) - 1#w).toNat = 2 ^ n - 1 := by
    rw [BitVec.toNat_sub, BitVec.toNat_shiftLeft, BitVec.toNat_ofNat, h1, Nat.shiftLeft_eq,
      Nat.one_mul, Nat.mod_eq_of_lt hpow]
    have hsum : 2 ^ w - 1 + 2 ^ n = 2 ^ n - 1 + 2 ^ w := by omega
    rw [hsum, Nat.add_mod_right, Nat.mod_eq_of_lt (by omega)]
  rw [BitVec.toNat_and, hm, Nat.and_two_pow_sub_one_eq_mod]

/-- `(x << 1) | b` appends a bit. -/
theorem toNat_shift_or_bit (x : BitVec w) (b : Bool) :
    ((x <<< 1) ||| (BitVec.ofBool b).setWidth w).toNat = (2 * x.toNat + b.toNat) % 2 ^ w := by
  have h := shift_or (w := w) x (BitVec.ofBool b)
  rw [BitVec.setWidth_eq] at h
  rw [h, BitVec.toNat_setWidth, BitVec.toNat_append, BitVec.toNat_ofBool,
    ← Nat.shiftLeft_add_eq_or_of_lt (by cases b <;> decide), Nat.shiftLeft_eq, Nat.pow_one,
    Nat.mul_comm]

/-- An arithmetic shift agrees with a logical one below the sign. -/
theorem sshift_mask (x : BitVec w) (k n : ℕ) (hk : k + n ≤ w) {mask : BitVec w}
    (hm : mask = (BitVec.allOnes n).setWidth w) :
    (x.sshiftRight k) &&& mask = (x.extractLsb' k n).setWidth w := by
  subst hm
  ext i hi
  by_cases h : i < n
  · simp [h, BitVec.getElem_sshiftRight, show k + i < w by omega, BitVec.getLsbD_eq_getElem]
  · simp [h]

/-- Four bytes shifted into place are their concatenation. -/
theorem bytes_or (b3 b2 b1 b0 : BitVec 8) :
    (b3.setWidth 32 <<< 24) ||| (b2.setWidth 32 <<< 16) ||| (b1.setWidth 32 <<< 8) |||
      b0.setWidth 32 = b3 ++ b2 ++ b1 ++ b0 := by
  have h3 : b3.setWidth 32 <<< 24 = ((b3.setWidth 32 <<< 8) <<< 8) <<< 8 := by
    rw [← BitVec.shiftLeft_add, ← BitVec.shiftLeft_add]
  have h2 : b2.setWidth 32 <<< 16 = (b2.setWidth 32 <<< 8) <<< 8 := by
    rw [← BitVec.shiftLeft_add]
  calc _ = (((b3 ++ b2 ++ b1).setWidth 32) <<< 8) ||| b0.setWidth 32 := by
        rw [← shift_or, ← shift_or, h3, h2, ← BitVec.shiftLeft_or_distrib,
          ← BitVec.shiftLeft_or_distrib, ← BitVec.shiftLeft_or_distrib]
    _ = (b3 ++ b2 ++ b1 ++ b0).setWidth 32 := shift_or _ _
    _ = _ := BitVec.setWidth_eq _

/-- And the four bytes of a word make up the word. -/
theorem bytes_join (x : BitVec 32) : x.extractLsb' 24 8 ++ x.extractLsb' 16 8 ++
    x.extractLsb' 8 8 ++ x.extractLsb' 0 8 = x := by
  rw [BitVec.extractLsb'_append_extractLsb'_eq_extractLsb' (show 24 = 16 + 8 from rfl),
    BitVec.extractLsb'_append_extractLsb'_eq_extractLsb' (show 16 = 8 + 8 from rfl),
    BitVec.extractLsb'_append_extractLsb'_eq_extractLsb' (show 8 = 0 + 8 from rfl)]
  exact slice_all

/-- Each of four joined bytes is a byte of the word. -/
theorem join_bytes (b3 b2 b1 b0 : BitVec 8) :
    (b3 ++ b2 ++ b1 ++ b0).extractLsb' 0 8 = b0 ∧ (b3 ++ b2 ++ b1 ++ b0).extractLsb' 8 8 = b1 ∧
      (b3 ++ b2 ++ b1 ++ b0).extractLsb' 16 8 = b2 ∧
      (b3 ++ b2 ++ b1 ++ b0).extractLsb' 24 8 = b3 := by
  refine ⟨?_, ?_, ?_, ?_⟩ <;> ext i hi <;> simp <;> grind

/-- Setting the high bits when the sign bit is set is sign extension. -/
theorem sign_or (x : BitVec n) (hn : 0 < n) (hw : n ≤ w) {sign high : BitVec w}
    (hs : sign = BitVec.twoPow w (n - 1)) (hh : high = BitVec.allOnes w <<< n) :
    (if x.setWidth w &&& sign ≠ 0 then x.setWidth w ||| high else x.setWidth w) =
      x.signExtend w := by
  have hmsb : x.setWidth w &&& sign ≠ 0 ↔ x.msb = true := by
    rw [hs, BitVec.and_twoPow, BitVec.getLsbD_setWidth, BitVec.msb_eq_getLsbD_last,
      decide_eq_true (show n - 1 < w by omega), Bool.true_and]
    have hp : BitVec.twoPow w (n - 1) ≠ 0 := by
      intro h0
      have := congrArg BitVec.toNat h0
      rw [BitVec.toNat_twoPow_of_lt (by omega)] at this
      exact absurd this (Nat.pos_iff_ne_zero.mp (Nat.two_pow_pos _))
    cases x.getLsbD (n - 1)
    · simp
    · simpa using hp
  ext i hi
  rw [BitVec.getElem_signExtend]
  by_cases h : x.msb = true
  · rw [if_pos (hmsb.mpr h), hh]
    by_cases hin : i < n
    · simp [hin]
    · simp [hin, h]
  · rw [if_neg (hmsb.not.mpr h)]
    by_cases hin : i < n
    · simp [hin]
    · simp [hin, h, BitVec.getLsbD_of_ge x i (Nat.le_of_not_lt hin)]

/-! ### What survives a mask -/

theorem shiftLeft_lt {x : BitVec w} {k : ℕ} (hx : x.toNat < 2 ^ n) :
    (x <<< k).toNat < 2 ^ (n + k) := by
  rw [BitVec.toNat_shiftLeft, Nat.shiftLeft_eq, Nat.pow_add]
  refine lt_of_le_of_lt (Nat.mod_le _ _) ?_
  exact Nat.mul_lt_mul_of_pos_right hx (Nat.two_pow_pos k)

/-- A shift loses nothing while the word has room. -/
theorem shiftLeft_inj {x y : BitVec w} {k : ℕ} (hn : n + k ≤ w) (hx : x.toNat < 2 ^ n)
    (hy : y.toNat < 2 ^ n) (h : x <<< k = y <<< k) : x = y := by
  have hw : 2 ^ n * 2 ^ k ≤ 2 ^ w := by
    rw [← Nat.pow_add]
    exact Nat.pow_le_pow_right Nat.two_pos hn
  have fits : ∀ z : BitVec w, z.toNat < 2 ^ n → (z <<< k).toNat = z.toNat * 2 ^ k := by
    intro z hz
    rw [BitVec.toNat_shiftLeft, Nat.shiftLeft_eq]
    exact Nat.mod_eq_of_lt
      (lt_of_lt_of_le (Nat.mul_lt_mul_of_pos_right hz (Nat.two_pow_pos k)) hw)
  have hprod := congrArg BitVec.toNat h
  rw [fits x hx, fits y hy] at hprod
  exact BitVec.eq_of_toNat_eq (Nat.eq_of_mul_eq_mul_right (Nat.two_pow_pos k) hprod)

theorem and_xor_distrib_right (x y m : BitVec w) :
    (x ^^^ y) &&& m = (x &&& m) ^^^ (y &&& m) := by
  ext i hi
  simp only [BitVec.getElem_and, BitVec.getElem_xor, Bool.and_xor_distrib_right]

/-- Words of `n` bits that are mixed with the same word stay apart under the mask. -/
theorem xor_mask_inj {x y a : BitVec w} (hn : n < w) (hx : x.toNat < 2 ^ n) (hy : y.toNat < 2 ^ n)
    (h : (x ^^^ a) &&& ((1#w <<< n) - 1#w) = (y ^^^ a) &&& ((1#w <<< n) - 1#w)) : x = y := by
  have inside : ∀ z : BitVec w, z.toNat < 2 ^ n →
      (z ^^^ a) &&& ((1#w <<< n) - 1#w) = z ^^^ (a &&& ((1#w <<< n) - 1#w)) := by
    intro z hz
    have hself : z &&& ((1#w <<< n) - 1#w) = z := by
      apply BitVec.eq_of_toNat_eq
      rw [toNat_mask z hn, Nat.mod_eq_of_lt hz]
    rw [and_xor_distrib_right, hself]
  rw [inside x hx, inside y hy] at h
  exact (BitVec.xor_left_inj _).mp h

/-- Mixing a word with its own lower bits, shifted up, can be undone from the lowest bit on. -/
theorem xor_shift_low_inj {x y mask : BitVec w} {k : ℕ} (hk : 0 < k)
    (h : x ^^^ ((x &&& mask) <<< k) = y ^^^ ((y &&& mask) <<< k)) : x = y := by
  have hbits : ∀ i, x.getLsbD i = y.getLsbD i := by
    intro i
    induction i using Nat.strong_induction_on with
    | h i ih =>
      have hi := congrArg (fun z : BitVec w => z.getLsbD i) h
      simp only [BitVec.getLsbD_xor, BitVec.getLsbD_shiftLeft, BitVec.getLsbD_and] at hi
      by_cases hik : i < k
      · simpa [hik] using hi
      · -- the bit mixed in is a lower one
        rw [ih (i - k) (by omega)] at hi
        exact Bool.xor_left_inj.mp hi
  exact BitVec.eq_of_getLsbD_eq fun i _ => hbits i

end Bits
