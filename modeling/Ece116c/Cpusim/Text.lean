import Ece116c.Cpusim.Programs
import Ece116c.Lib.Words

/-! The loader of `cpusim.cpp` on the text of a file: which bytes a text puts into `instMem`.

    A number that `int` cannot hold is read as the nearest one that it can, and no number as 0; the
    stream fails then, but each word has a stream of its own and nobody asks. -/

namespace Cpusim
open Scan

/-- What `>>` makes of a number for an `int`. -/
def nearestInt (z : ℤ) : ℤ := max (-2 ^ 31) (min z (2 ^ 31 - 1))

/-- `line2 >> hex >> x` -/
def readHex (line : List Char) : BitVec 32 :=
  (scanNumber 16 line).elim 0 fun found => BitVec.ofInt 32 (nearestInt found.1)

/-- `main` from the text of the file on. -/
def mainText (text : List Char) (uninit : InstMem) (fuel : ℕ) :
    Option (BitVec 32 × BitVec 32) :=
  (words text).bind fun lines => main (lines.map readHex) uninit fuel

/-! ### Words -/

/-- The byte that a word stands for. -/
inductive Spells : List Char → BitVec 8 → Prop
  | number {n : Numeral 16} {rest : List Char} : n.EndsAt rest → -2 ^ 31 ≤ n.value →
      n.value < 2 ^ 31 → Spells (n.text ++ rest) (BitVec.ofInt 8 n.value)
  | above {n : Numeral 16} {rest : List Char} : n.EndsAt rest → 2 ^ 31 ≤ n.value →
      Spells (n.text ++ rest) 0xFF
  | below {n : Numeral 16} {rest : List Char} : n.EndsAt rest → n.value < -2 ^ 31 →
      Spells (n.text ++ rest) 0x00
  | none {line : List Char} : (∀ (n : Numeral 16) rest, line = n.text ++ rest → ¬n.EndsAt rest) →
      Spells line 0x00

variable {line rest text : List Char} {b : BitVec 8} {bs : List (BitVec 8)}

/-- A number at the beginning of a text, no white space before it. -/
theorem scanNumber_numeral {base : ℕ} {n : Numeral base} (h : n.EndsAt rest) :
    scanNumber base (n.text ++ rest) = some (n.value, rest) :=
  @Field.scanNumber_eq base rest ⟨n, [], blank_nil⟩ h

theorem exists_numeral {base : ℕ} {z : ℤ} (hw : IsWord line)
    (h : scanNumber base line = some (z, rest)) :
    ∃ n : Numeral base, line = n.text ++ rest ∧ n.value = z ∧ n.EndsAt rest := by
  obtain ⟨f, rfl, hz, hend⟩ := exists_field h
  refine ⟨f.toNumeral, ?_, hz, hend⟩
  cases hb : f.blank with
  | nil => rw [Field.text, hb, List.nil_append]
  | cons c cs =>
    have hspace := f.isBlank c (by rw [hb]; exact List.mem_cons_self ..)
    have hsolid := hw.solid c (by rw [Field.text, hb]; simp)
    rw [hspace] at hsolid
    cases hsolid

theorem setWidth_ofInt (z : ℤ) : (BitVec.ofInt 32 z).setWidth 8 = BitVec.ofInt 8 z := by
  rw [← BitVec.toNat_inj, BitVec.toNat_setWidth, BitVec.toNat_ofInt, BitVec.toNat_ofInt]
  omega

theorem readHex_numeral {n : Numeral 16} (h : n.EndsAt rest) :
    (readHex (n.text ++ rest)).setWidth 8 = BitVec.ofInt 8 (nearestInt n.value) := by
  rw [readHex, scanNumber_numeral h, Option.elim_some, setWidth_ofInt]

theorem readHex_of_spells (hw : IsWord line) (h : Spells line b) :
    (readHex line).setWidth 8 = b := by
  cases h with
  | number hend hlow hhigh =>
    rw [readHex_numeral hend, nearestInt, min_eq_left (by omega), max_eq_right (by omega)]
  | above hend habove =>
    rw [readHex_numeral hend, nearestInt, min_eq_right (by omega)]
    rfl
  | below hend hbelow =>
    rw [readHex_numeral hend, nearestInt, min_eq_left (by omega), max_eq_left (by omega)]
    rfl
  | none hnone =>
    cases hs : scanNumber 16 line with
    | none =>
      rw [readHex, hs]
      rfl
    | some found =>
      obtain ⟨n, hl, -, hend⟩ := exists_numeral hw hs
      exact absurd hend (hnone n _ hl)

/-- Every word spells a byte. -/
theorem spells_readHex (hw : IsWord line) : Spells line ((readHex line).setWidth 8) := by
  cases hs : scanNumber 16 line with
  | none =>
    rw [readHex, hs]
    refine .none fun n rest hl hend => ?_
    rw [hl, scanNumber_numeral hend] at hs
    cases hs
  | some found =>
    obtain ⟨n, rfl, -, hend⟩ := exists_numeral hw hs
    rw [readHex_numeral hend, nearestInt]
    rcases lt_or_ge n.value (-2 ^ 31) with hbelow | hlow
    · rw [min_eq_left (by omega), max_eq_left (by omega)]
      exact .below hend hbelow
    · rcases lt_or_ge n.value (2 ^ 31) with hhigh | habove
      · rw [min_eq_left (by omega), max_eq_right (by omega)]
        exact .number hend hlow hhigh
      · rw [min_eq_right (by omega)]
        exact .above hend habove

/-! ### Files -/

/-- `text` is words that spell the bytes, with white space between them. -/
def Listing (text : List Char) (bs : List (BitVec 8)) : Prop :=
  ∃ lines, Spaced text lines ∧ List.Forall₂ Spells lines bs

theorem spells_all {lines : List (List Char)} (hw : ∀ line ∈ lines, IsWord line) :
    List.Forall₂ Spells lines bs ↔ bytes (lines.map readHex) = bs := by
  induction lines generalizing bs with
  | nil => simp [bytes, eq_comm]
  | cons line lines ih =>
    simp only [List.mem_cons, forall_eq_or_imp] at hw
    rw [List.forall₂_cons_left_iff]
    constructor
    · rintro ⟨b, bs, hb, hbs, rfl⟩
      rw [← (ih hw.2).mp hbs, ← readHex_of_spells hw.1 hb]
      rfl
    · rintro rfl
      exact ⟨_, _, spells_readHex hw.1, (ih hw.2).mpr rfl, rfl⟩

theorem listing_iff {lines : List (List Char)} (h : words text = some lines) :
    Listing text bs ↔ bytes (lines.map readHex) = bs := by
  have hspaced := words_iff.mp h
  rw [← spells_all hspaced.isWord]
  constructor
  · rintro ⟨lines', hspaced', hall⟩
    rw [words_iff.mpr hspaced', Option.some.injEq] at h
    rwa [← h]
  · intro hall
    exact ⟨lines, hspaced, hall⟩

/-- The loader keeps the low bytes of what it reads. -/
theorem load_bytes {xs ys : List (BitVec 32)} (h : bytes xs = bytes ys) (i : ℕ) (m : InstMem) :
    load xs i m = load ys i m := by
  induction xs generalizing ys i m with
  | nil =>
    cases ys with
    | nil => rfl
    | cons y ys => cases h
  | cons x xs ih =>
    cases ys with
    | nil => cases h
    | cons y ys =>
      obtain ⟨hb, hbs⟩ := List.cons.inj h
      rw [load, load, hb]
      split
      · exact ih hbs _ _
      · rfl

theorem main_bytes {xs ys : List (BitVec 32)} (h : bytes xs = bytes ys) (uninit : InstMem)
    (fuel : ℕ) : main xs uninit fuel = main ys uninit fuel := by
  rw [main, main, load_bytes h]

theorem bytes_widened (bs : List (BitVec 8)) : bytes (bs.map (BitVec.setWidth 32)) = bs := by
  rw [bytes, List.map_map]
  refine List.map_id'' (fun b => ?_) bs
  rw [Function.comp_apply, BitVec.setWidth_setWidth_of_le _ (by decide), BitVec.setWidth_eq]

/-- Each byte in hexadecimal on a line of its own. -/
def dump (bs : List (BitVec 8)) : List Char :=
  (bs.map fun b => digits 16 b.toNat).flatMap fun line => line ++ [Char.ofNat 10]

theorem spells_digits (b : BitVec 8) : Spells (digits 16 b.toNat) b := by
  let n := printed 16 (by decide) (by decide) blank_nil b.toNat
  have hvalue : n.value = b.toNat := printed_value blank_nil _
  have hsign : (if (b.toNat : ℤ) < 0 then Sign.minus else .none) = .none := if_neg (by omega)
  have htext : n.toNumeral.text ++ [] = digits 16 b.toNat := by
    rw [List.append_nil, Numeral.text]
    simp only [n, printed, hsign]
    rfl
  have hlt := b.isLt
  have hspells := Spells.number (endsAt_nil n.toNumeral) (by omega) (by omega)
  rwa [htext, hvalue, BitVec.ofInt_natCast, BitVec.ofNat_toNat, BitVec.setWidth_eq] at hspells

theorem listing_dump (bs : List (BitVec 8)) : Listing (dump bs) bs := by
  refine ⟨_, spaced_flatMap (by decide) fun line hline => ?_, ?_⟩
  · obtain ⟨b, -, rfl⟩ := List.mem_map.mp hline
    exact isWord_digits (by decide) (by decide)
  · rw [List.forall₂_map_left_iff]
    exact List.forall₂_same.mpr fun b _ => spells_digits b

/-- **The program on the text of a file.** Every text lists one sequence of bytes, whatever is in
    it, every sequence of bytes is listed by its dump, and nothing but the bytes matters to what is
    printed. -/
theorem mainText_listing :
    (∀ text, ∃! bs, Listing text bs) ∧ (∀ bs, Listing (dump bs) bs) ∧
      ∀ text bs, Listing text bs → ∀ uninit fuel,
        mainText text uninit fuel = main (bs.map (BitVec.setWidth 32)) uninit fuel := by
  refine ⟨fun text => ?_, listing_dump, fun text bs h uninit fuel => ?_⟩
  · obtain ⟨lines, hlines⟩ := exists_words text
    exact ⟨_, (listing_iff hlines).mpr rfl, fun bs h => ((listing_iff hlines).mp h).symm⟩
  · obtain ⟨lines, hlines⟩ := exists_words text
    rw [mainText, hlines, Option.bind_some]
    refine main_bytes ?_ uninit fuel
    rw [bytes_widened, (listing_iff hlines).mp h]

end Cpusim
