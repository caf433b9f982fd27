import Mathlib.Data.Nat.Digits.Lemmas
import Mathlib.Data.List.TakeWhile

/-! Numbers in a text, as the formatted input of C finds them: after white space come a sign, for
    base 16 a prefix, and at least one digit, and as many characters are taken as can be.

    A `Field` is a way to write a number; `scanNumber_iff` says that the scanner accepts these and
    nothing else. -/

namespace Scan

variable {base : ℕ} {c : Char} {l rest : List Char}

/-! ### White space -/

/-- `isspace`: the blank, and the tab to the carriage return. -/
def isSpace (c : Char) : Bool := c.toNat == 32 || (decide (9 ≤ c.toNat) && decide (c.toNat ≤ 13))

def skipSpace (l : List Char) : List Char := l.dropWhile isSpace

def Blank (l : List Char) : Prop := ∀ c ∈ l, isSpace c = true

instance (l : List Char) : Decidable (Blank l) := inferInstanceAs (Decidable (∀ c ∈ l, _))

theorem blank_nil : Blank [] := fun _ h => absurd h List.not_mem_nil

theorem blank_singleton (h : isSpace c = true) : Blank [c] := by
  intro x hx
  rwa [List.mem_singleton.mp hx]

/-- A text that does not begin with a character of `p`. -/
def Avoids (p : Char → Bool) (l : List Char) : Prop := ∀ c ∈ l.head?, p c = false

instance (p : Char → Bool) (l : List Char) : Decidable (Avoids p l) :=
  inferInstanceAs (Decidable (∀ c ∈ l.head?, _))

theorem avoids_nil (p : Char → Bool) : Avoids p [] := fun c h => absurd h (Option.not_mem_none c)

theorem avoids_dropWhile (p : Char → Bool) (l : List Char) : Avoids p (l.dropWhile p) := by
  intro c hc
  have h := List.head?_dropWhile_not p l
  rw [Option.mem_def.mp hc] at h
  exact h

theorem avoids_append {p : Char → Bool} (hl : l ≠ []) : Avoids p (l ++ rest) ↔ Avoids p l := by
  rw [Avoids, Avoids, List.head?_append_of_ne_nil _ hl]

theorem dropWhile_of_avoids {p : Char → Bool} (h : Avoids p l) : l.dropWhile p = l := by
  cases l with
  | nil => rfl
  | cons c l => rw [List.dropWhile_cons, h c rfl]; rfl

theorem takeWhile_of_avoids {p : Char → Bool} (h : Avoids p l) : l.takeWhile p = [] := by
  cases l with
  | nil => rfl
  | cons c l => rw [List.takeWhile_cons, h c rfl]; rfl

theorem skipSpace_append (hl : Blank l) (hr : Avoids isSpace rest) :
    skipSpace (l ++ rest) = rest := by
  rw [skipSpace, List.dropWhile_append_of_pos hl, dropWhile_of_avoids hr]

theorem exists_blank (l : List Char) : ∃ blank, Blank blank ∧ l = blank ++ skipSpace l :=
  ⟨l.takeWhile isSpace, fun _ hc => List.mem_takeWhile_imp hc,
    (List.takeWhile_append_dropWhile ..).symm⟩

/-! ### Digits -/

def digitVal? (c : Char) : Option ℕ :=
  if '0'.toNat ≤ c.toNat ∧ c.toNat ≤ '9'.toNat then some (c.toNat - '0'.toNat)
  else if 'a'.toNat ≤ c.toNat ∧ c.toNat ≤ 'f'.toNat then some (c.toNat - 'a'.toNat + 10)
  else if 'A'.toNat ≤ c.toNat ∧ c.toNat ≤ 'F'.toNat then some (c.toNat - 'A'.toNat + 10)
  else none

def isDigit (base : ℕ) (c : Char) : Bool := (digitVal? c).any fun d => decide (d < base)

/-- The number that digits stand for, the highest one first. -/
def value (base : ℕ) (ds : List Char) : ℕ :=
  Nat.ofDigits base (ds.reverse.map fun c => (digitVal? c).getD 0)

theorem isDigit_of_none (h : digitVal? c = none) : isDigit base c = false := by
  rw [isDigit, h]
  rfl

theorem digitVal?_of_space (h : isSpace c = true) : digitVal? c = none := by
  simp only [isSpace, Bool.or_eq_true, beq_iff_eq, Bool.and_eq_true, decide_eq_true_eq] at h
  simp only [digitVal?, Char.reduceToNat]
  rw [if_neg (by omega), if_neg (by omega), if_neg (by omega)]

theorem isSpace_of_digit (h : isDigit base c = true) : isSpace c = false := by
  by_contra hspace
  rw [Bool.not_eq_false] at hspace
  rw [isDigit_of_none (digitVal?_of_space hspace)] at h
  cases h

theorem digitVal?_digitChar : ∀ d < 16, digitVal? (Nat.digitChar d) = some d := by decide

theorem isDigit_digitChar {d : ℕ} (hd : d < base) (hb : base ≤ 16) :
    isDigit base (Nat.digitChar d) = true := by
  rw [isDigit, digitVal?_digitChar d (by omega)]
  exact decide_eq_true hd

/-! ### Numerals -/

inductive Sign where | none | plus | minus
  deriving DecidableEq

def Sign.text : Sign → List Char
  | .none => []
  | .plus => ['+']
  | .minus => ['-']

def Sign.apply : Sign → ℕ → ℤ
  | .none, n => n
  | .plus, n => n
  | .minus, n => -n

/-- The prefix of a hexadecimal number. -/
inductive Mark where | none | lower | upper
  deriving DecidableEq

def Mark.text : Mark → List Char
  | .none => []
  | .lower => ['0', 'x']
  | .upper => ['0', 'X']

/-- A way to write a number. -/
structure Numeral (base : ℕ) where
  sign : Sign
  mark : Mark
  digits : List Char
  mark_base : mark ≠ .none → base = 16
  digits_ne : digits ≠ []
  digit : ∀ c ∈ digits, isDigit base c = true

namespace Numeral

def text (n : Numeral base) : List Char := n.sign.text ++ (n.mark.text ++ n.digits)

def value (n : Numeral base) : ℤ := n.sign.apply (Scan.value base n.digits)

/-- What can stand after a numeral: no further digit, and no mark that makes a prefix of it. -/
structure EndsAt (n : Numeral base) (rest : List Char) : Prop where
  digit : Avoids (isDigit base) rest
  mark : base = 16 → n.mark = .none → n.digits = ['0'] →
    Avoids (fun c => c == 'x' || c == 'X') rest

end Numeral

theorem Numeral.endsAt_append {n : Numeral base} (hl : l ≠ []) :
    n.EndsAt (l ++ rest) ↔ n.EndsAt l := by
  constructor
  · rintro ⟨hdigit, hmark⟩
    exact ⟨(avoids_append hl).mp hdigit, fun hb hm hd => (avoids_append hl).mp (hmark hb hm hd)⟩
  · rintro ⟨hdigit, hmark⟩
    exact ⟨(avoids_append hl).mpr hdigit, fun hb hm hd => (avoids_append hl).mpr (hmark hb hm hd)⟩

/-- A numeral behind white space. -/
structure Field (base : ℕ) extends Numeral base where
  blank : List Char
  isBlank : Blank blank

def Field.text (f : Field base) : List Char := f.blank ++ f.toNumeral.text

theorem Field.text_ne (f : Field base) : f.text ≠ [] := by
  intro h
  rw [text, Numeral.text, List.append_eq_nil_iff, List.append_eq_nil_iff,
    List.append_eq_nil_iff] at h
  exact f.digits_ne h.2.2.2

/-! ### The scanner -/

def scanSign : List Char → Sign × List Char
  | '+' :: l => (.plus, l)
  | '-' :: l => (.minus, l)
  | l => (.none, l)

def scanMark (base : ℕ) (l : List Char) : Mark × List Char :=
  if base = 16 then
    match l with
    | '0' :: 'x' :: l => (.lower, l)
    | '0' :: 'X' :: l => (.upper, l)
    | l => (.none, l)
  else (.none, l)

/-- A number and the text behind it, if one comes next. -/
def scanNumber (base : ℕ) (l : List Char) : Option (ℤ × List Char) :=
  let signed := scanSign (skipSpace l)
  let marked := (scanMark base signed.2).2
  if marked.takeWhile (isDigit base) = [] then none
  else some (signed.1.apply (value base (marked.takeWhile (isDigit base))),
    marked.dropWhile (isDigit base))

def isSign (c : Char) : Bool := c == '+' || c == '-'

theorem scanSign_of_avoids (h : Avoids isSign l) : scanSign l = (.none, l) := by
  unfold scanSign
  split
  · exact absurd (h '+' rfl) (by decide)
  · exact absurd (h '-' rfl) (by decide)
  · rfl

theorem scanSign_text (s : Sign) (h : Avoids isSign l) : scanSign (s.text ++ l) = (s, l) := by
  cases s with
  | none => exact scanSign_of_avoids h
  | plus => rfl
  | minus => rfl

theorem text_scanSign (l : List Char) : (scanSign l).1.text ++ (scanSign l).2 = l := by
  unfold scanSign
  split <;> rfl

theorem text_scanMark (l : List Char) : (scanMark base l).1.text ++ (scanMark base l).2 = l := by
  unfold scanMark
  split
  · split <;> rfl
  · rfl

theorem scanMark_base (h : (scanMark base l).1 ≠ .none) : base = 16 := by
  by_contra hb
  unfold scanMark at h
  rw [if_neg hb] at h
  exact h rfl

/-- A text without a prefix has none. -/
theorem scanMark_of_none
    (h : base = 16 → ∀ x r, l = '0' :: x :: r → (x == 'x' || x == 'X') = false) :
    scanMark base l = (.none, l) := by
  unfold scanMark
  split
  · rename_i hb
    split
    · exact absurd (h hb _ _ rfl) (by decide)
    · exact absurd (h hb _ _ rfl) (by decide)
    · rfl
  · rfl

theorem scanMark_text {m : Mark} (hm : m ≠ .none) (hb : base = 16) :
    scanMark base (m.text ++ l) = (m, l) := by
  unfold scanMark
  rw [if_pos hb]
  cases m with
  | none => exact absurd rfl hm
  | lower => rfl
  | upper => rfl

theorem isDigit_mark {x : Char} (h : isDigit base x = true) : (x == 'x' || x == 'X') = false := by
  by_contra hx
  rw [Bool.not_eq_false, Bool.or_eq_true, beq_iff_eq, beq_iff_eq] at hx
  rcases hx with rfl | rfl
  · rw [isDigit_of_none rfl] at h
    cases h
  · rw [isDigit_of_none rfl] at h
    cases h

theorem isSign_of_digit {x : Char} (h : isDigit base x = true) : isSign x = false := by
  by_contra hx
  rw [Bool.not_eq_false, isSign, Bool.or_eq_true, beq_iff_eq, beq_iff_eq] at hx
  rcases hx with rfl | rfl
  · rw [isDigit_of_none rfl] at h
    cases h
  · rw [isDigit_of_none rfl] at h
    cases h

namespace Numeral

variable {n : Numeral base}

/-- What comes behind the sign begins with a digit or a prefix. -/
theorem avoids_unsigned {p : Char → Bool} (hdigit : ∀ c, isDigit base c = true → p c = false)
    (hzero : p '0' = false) (n : Numeral base) (rest : List Char) :
    Avoids p (n.mark.text ++ n.digits ++ rest) := by
  intro c hc
  cases hm : n.mark with
  | none =>
    rw [hm] at hc
    obtain ⟨d, ds, hds⟩ := List.exists_cons_of_ne_nil n.digits_ne
    rw [hds] at hc
    obtain rfl := Option.some.inj hc
    exact hdigit d (n.digit d (by rw [hds]; exact List.mem_cons_self ..))
  | lower =>
    rw [hm] at hc
    obtain rfl := Option.some.inj hc
    exact hzero
  | upper =>
    rw [hm] at hc
    obtain rfl := Option.some.inj hc
    exact hzero

theorem avoids_isSpace (n : Numeral base) (rest : List Char) :
    Avoids isSpace (n.text ++ rest) := by
  cases hs : n.sign with
  | none =>
    rw [text, hs]
    exact avoids_unsigned (fun _ => isSpace_of_digit) rfl n rest
  | plus =>
    rw [text, hs]
    intro c hc
    obtain rfl := Option.some.inj hc
    rfl
  | minus =>
    rw [text, hs]
    intro c hc
    obtain rfl := Option.some.inj hc
    rfl

/-- The prefix is found where it is written, and nowhere else. -/
theorem scanMark_eq (h : n.EndsAt rest) :
    (scanMark base (n.mark.text ++ n.digits ++ rest)).2 = n.digits ++ rest := by
  rw [List.append_assoc]
  by_cases hm : n.mark = .none
  · rw [hm]
    change (scanMark base (n.digits ++ rest)).2 = _
    rw [scanMark_of_none]
    intro hb x r hl
    obtain ⟨d, ds, hds⟩ := List.exists_cons_of_ne_nil n.digits_ne
    rw [hds, List.cons_append] at hl
    obtain ⟨rfl, hnext⟩ := List.cons.inj hl
    cases ds with
    | nil =>
      rw [List.nil_append] at hnext
      exact h.mark hb hm hds x (by rw [hnext]; rfl)
    | cons e es =>
      obtain ⟨rfl, -⟩ := List.cons.inj hnext
      refine @isDigit_mark base _ (n.digit e ?_)
      rw [hds]
      exact List.mem_cons_of_mem _ (List.mem_cons_self ..)
  · rw [scanMark_text hm (n.mark_base hm)]

end Numeral

/-- A numeral is scanned as its value. -/
theorem Field.scanNumber_eq {n : Field base} (h : n.EndsAt rest) :
    scanNumber base (n.text ++ rest) = some (n.value, rest) := by
  have hsign : scanSign (n.toNumeral.text ++ rest) =
      (n.sign, n.mark.text ++ n.digits ++ rest) := by
    rw [Numeral.text, List.append_assoc]
    exact scanSign_text _ (Numeral.avoids_unsigned (fun _ => isSign_of_digit) rfl _ rest)
  have htake : (n.digits ++ rest).takeWhile (isDigit base) = n.digits := by
    rw [List.takeWhile_append_of_pos n.digit, takeWhile_of_avoids h.digit, List.append_nil]
  have hdrop : (n.digits ++ rest).dropWhile (isDigit base) = rest := by
    rw [List.dropWhile_append_of_pos n.digit, dropWhile_of_avoids h.digit]
  rw [scanNumber, text, List.append_assoc,
    skipSpace_append n.isBlank (Numeral.avoids_isSpace n.toNumeral rest), hsign]
  change (if (scanMark base (n.mark.text ++ n.digits ++ rest)).2.takeWhile _ = [] then _ else _) = _
  rw [Numeral.scanMark_eq h, htake, if_neg n.digits_ne, hdrop]
  rfl

/-- What is scanned as a number is a numeral of it. -/
theorem exists_field {z : ℤ} (h : scanNumber base l = some (z, rest)) :
    ∃ f : Field base, l = f.text ++ rest ∧ f.value = z ∧ f.EndsAt rest := by
  obtain ⟨blank, hblank, hl⟩ := exists_blank l
  unfold scanNumber at h
  extract_lets signed marked at h
  split at h
  · cases h
  · rename_i hne
    obtain ⟨hz, hrest⟩ := Prod.mk.inj (Option.some.inj h)
    have hsign : signed.1.text ++ signed.2 = skipSpace l := text_scanSign _
    have hmark : (scanMark base signed.2).1.text ++ marked = signed.2 := text_scanMark _
    have hdigits : marked.takeWhile (isDigit base) ++ rest = marked := by
      rw [← hrest, List.takeWhile_append_dropWhile]
    refine ⟨⟨⟨signed.1, (scanMark base signed.2).1, marked.takeWhile (isDigit base),
      scanMark_base, hne, fun _ hc => List.mem_takeWhile_imp hc⟩, blank, hblank⟩, ?_, hz, ?_, ?_⟩
    · rw [Field.text, Numeral.text, List.append_assoc, List.append_assoc, List.append_assoc,
        hdigits, hmark, hsign, ← hl]
    · rw [← hrest]
      exact avoids_dropWhile _ _
    · -- a mark behind a lone zero would have been taken as a prefix
      intro hb hm hzero x hx
      dsimp only at hm hzero
      have hbare : marked = signed.2 := by rwa [hm] at hmark
      cases rest with
      | nil => cases hx
      | cons y r =>
        obtain rfl := Option.some.inj hx
        have htext : signed.2 = '0' :: y :: r := by rw [← hbare, ← hdigits, hzero]; rfl
        by_contra hxx
        rw [Bool.not_eq_false, Bool.or_eq_true, beq_iff_eq, beq_iff_eq] at hxx
        unfold scanMark at hm
        rw [if_pos hb, htext] at hm
        rcases hxx with rfl | rfl
        · cases hm
        · cases hm

theorem scanNumber_iff {z : ℤ} : scanNumber base l = some (z, rest) ↔
    ∃ f : Field base, l = f.text ++ rest ∧ f.value = z ∧ f.EndsAt rest := by
  refine ⟨exists_field, ?_⟩
  rintro ⟨f, rfl, rfl, hend⟩
  exact f.scanNumber_eq hend

/-- White space ends any numeral. -/
theorem endsAt_space (n : Numeral base) (h : isSpace c = true) (l : List Char) :
    n.EndsAt (c :: l) := by
  refine ⟨fun x hx => ?_, fun _ _ _ x hx => ?_⟩
  · obtain rfl := Option.some.inj hx
    exact isDigit_of_none (digitVal?_of_space h)
  · obtain rfl := Option.some.inj hx
    by_contra hmark
    rw [Bool.not_eq_false, Bool.or_eq_true, beq_iff_eq, beq_iff_eq] at hmark
    rcases hmark with rfl | rfl
    · cases h
    · cases h

/-- So does the end of the text. -/
theorem endsAt_nil (n : Numeral base) : n.EndsAt [] := ⟨avoids_nil _, fun _ _ _ => avoids_nil _⟩

/-! ### Writing -/

/-- A number as it is printed. -/
def digits (base n : ℕ) : List Char :=
  if n = 0 then ['0'] else (Nat.digits base n).reverse.map Nat.digitChar

theorem digits_ne (base n : ℕ) : digits base n ≠ [] := by
  rw [digits]
  split
  · exact List.cons_ne_nil _ _
  · rename_i hn
    rw [Ne, List.map_eq_nil_iff, List.reverse_eq_nil_iff, Nat.digits_eq_nil_iff_eq_zero]
    exact hn

section Digits

variable (h1 : 1 < base) (hb : base ≤ 16) (n : ℕ)

include h1 hb

theorem isDigit_digits : ∀ c ∈ digits base n, isDigit base c = true := by
  intro c hc
  rw [digits] at hc
  split at hc
  · obtain rfl := List.mem_singleton.mp hc
    exact isDigit_digitChar (d := 0) (by omega) hb
  · obtain ⟨d, hd, rfl⟩ := List.mem_map.mp hc
    exact isDigit_digitChar (Nat.digits_lt_base h1 (List.mem_reverse.mp hd)) hb

theorem value_digits : value base (digits base n) = n := by
  rw [digits]
  split
  · rename_i hn
    rw [hn]
    rfl
  · have hself : (Nat.digits base n).map (fun d => (digitVal? (Nat.digitChar d)).getD 0) =
        (Nat.digits base n).map id := by
      refine List.map_congr_left fun d hd => ?_
      have hlt := Nat.digits_lt_base h1 hd
      rw [digitVal?_digitChar d (by omega)]
      rfl
    rw [value, ← List.map_reverse, List.reverse_reverse, List.map_map]
    change Nat.ofDigits base ((Nat.digits base n).map fun d =>
      (digitVal? (Nat.digitChar d)).getD 0) = n
    rw [hself, List.map_id, Nat.ofDigits_digits]

end Digits

/-- A printed number behind white space. -/
def printed (base : ℕ) (h1 : 1 < base) (hb : base ≤ 16) {blank : List Char} (hblank : Blank blank)
    (z : ℤ) : Field base where
  sign := if z < 0 then .minus else .none
  mark := .none
  digits := digits base z.natAbs
  mark_base h := absurd rfl h
  digits_ne := digits_ne base _
  digit := isDigit_digits h1 hb _
  blank := blank
  isBlank := hblank

theorem printed_value {h1 : 1 < base} {hb : base ≤ 16} {blank : List Char} (hblank : Blank blank)
    (z : ℤ) : (printed base h1 hb hblank z).value = z := by
  rw [Numeral.value, printed, value_digits h1 hb]
  split
  · change -(z.natAbs : ℤ) = z
    omega
  · change (z.natAbs : ℤ) = z
    omega

end Scan
