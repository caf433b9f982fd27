import Ece116c.Lib.Reading
import Ece116c.Lib.Scan
import Ece116c.Procsim.State

/-! The trace file as a text (`read_instruction` of `procsim_driver.cpp`): the `fscanf` with format
    `"%x %d %d %d %d\n"`, and exactly which texts it accepts.

    White space in the format stands for any white space, also none, and a conversion skips white
    space before it. A number that does not fit its variable leaves the behaviour of the program
    undefined; the call has then `failed`. -/

namespace Procsim
open Scan Reading

/-! ### The conversions -/

/-- A conversion of `fscanf` for numbers in `base`. -/
def conversion (base : ℕ) (fits : ℤ → Bool) (l : List Char) : Outcome ℤ (List Char) :=
  match scanNumber base l with
  | none => .ended
  | some (z, rest) => if fits z then .next z rest else .failed

def fitsInt (z : ℤ) : Bool := decide (-2 ^ 31 ≤ z) && decide (z < 2 ^ 31)

/-- A negative number is taken modulo `2 ^ 32`. -/
def fitsUint (z : ℤ) : Bool := decide (z.natAbs < 2 ^ 32)

/-- `%d` -/
def convertD (l : List Char) : Outcome ℤ (List Char) := conversion 10 fitsInt l

/-- `%x` -/
def convertX (l : List Char) : Outcome ℤ (List Char) := conversion 16 fitsUint l

theorem conversion_iff {base : ℕ} {fits : ℤ → Bool} {l rest : List Char} {z : ℤ} :
    conversion base fits l = .next z rest ↔
      ∃ f : Field base, l = f.text ++ rest ∧ f.value = z ∧ fits z = true ∧ f.EndsAt rest := by
  unfold conversion
  cases hs : scanNumber base l with
  | none =>
    refine ⟨nofun, ?_⟩
    rintro ⟨f, rfl, rfl, -, hend⟩
    rw [f.scanNumber_eq hend] at hs
    cases hs
  | some found =>
    obtain ⟨z', rest'⟩ := found
    dsimp only
    constructor
    · intro h
      split at h
      · rename_i hfits
        cases h
        obtain ⟨f, hl, hz, hend⟩ := scanNumber_iff.mp hs
        exact ⟨f, hl, hz, hfits, hend⟩
      · cases h
    · rintro ⟨f, rfl, rfl, hfits, hend⟩
      rw [f.scanNumber_eq hend] at hs
      cases hs
      rw [if_pos hfits]

/-! ### `read_instruction` -/

/-- One call; it returns `false` where the outcome is `ended`. -/
def readInstruction (l : List Char) : Outcome TraceInst (List Char) :=
  (convertX l).andThen fun address l =>
  (convertD l).andThen fun opCode l =>
  (convertD l).andThen fun destReg l =>
  (convertD l).andThen fun srcReg0 l =>
  (convertD l).andThen fun srcReg1 l =>
  .next ⟨(address % 2 ^ 32).toNat, opCode, destReg, srcReg0, srcReg1⟩ (skipSpace l)

/-- All instructions of a text. -/
def readTrace (text : List Char) : Option (List TraceInst) :=
  loop readInstruction (text.length + 1) text

/-! ### Lines -/

/-- A way to write an instruction: five numbers, each of which ends where the next one begins, and
    the white space behind them. -/
structure Line where
  address : Field 16
  opCode : Field 10
  destReg : Field 10
  srcReg0 : Field 10
  srcReg1 : Field 10
  tail : List Char
  address_end : address.EndsAt opCode.text
  opCode_end : opCode.EndsAt destReg.text
  destReg_end : destReg.EndsAt srcReg0.text
  srcReg0_end : srcReg0.EndsAt srcReg1.text
  blank_tail : Blank tail
  address_fits : fitsUint address.value = true
  opCode_fits : fitsInt opCode.value = true
  destReg_fits : fitsInt destReg.value = true
  srcReg0_fits : fitsInt srcReg0.value = true
  srcReg1_fits : fitsInt srcReg1.value = true

namespace Line

def text (n : Line) : List Char :=
  n.address.text ++ (n.opCode.text ++ (n.destReg.text ++ (n.srcReg0.text ++ (n.srcReg1.text ++
    n.tail))))

def inst (n : Line) : TraceInst where
  instructionAddress := (n.address.value % 2 ^ 32).toNat
  opCode := n.opCode.value
  destReg := n.destReg.value
  srcReg0 := n.srcReg0.value
  srcReg1 := n.srcReg1.value

/-- What can stand after a line: its last number ends before it, and its white space is over. -/
structure EndsAt (n : Line) (rest : List Char) : Prop where
  number : n.srcReg1.EndsAt (n.tail ++ rest)
  space : Avoids isSpace rest

theorem text_ne (n : Line) : n.text ≠ [] := by
  intro h
  rw [text, List.append_eq_nil_iff] at h
  exact n.address.text_ne h.1

end Line

variable {text rest : List Char} {t : TraceInst} {tr : List TraceInst}

/-- A line is read as its instruction. -/
theorem Line.readInstruction_eq {n : Line} (h : n.EndsAt rest) :
    readInstruction (n.text ++ rest) = .next n.inst rest := by
  have haddress : convertX (n.text ++ rest) = .next n.address.value
      (n.opCode.text ++ (n.destReg.text ++ (n.srcReg0.text ++ (n.srcReg1.text ++
        (n.tail ++ rest))))) :=
    conversion_iff.mpr ⟨n.address, by simp only [Line.text, List.append_assoc], rfl,
      n.address_fits, (Numeral.endsAt_append n.opCode.text_ne).mpr n.address_end⟩
  have hopCode : convertD (n.opCode.text ++ (n.destReg.text ++ (n.srcReg0.text ++
      (n.srcReg1.text ++ (n.tail ++ rest))))) = .next n.opCode.value _ :=
    conversion_iff.mpr ⟨n.opCode, rfl, rfl, n.opCode_fits,
      (Numeral.endsAt_append n.destReg.text_ne).mpr n.opCode_end⟩
  have hdestReg : convertD (n.destReg.text ++ (n.srcReg0.text ++ (n.srcReg1.text ++
      (n.tail ++ rest)))) = .next n.destReg.value _ :=
    conversion_iff.mpr ⟨n.destReg, rfl, rfl, n.destReg_fits,
      (Numeral.endsAt_append n.srcReg0.text_ne).mpr n.destReg_end⟩
  have hsrcReg0 : convertD (n.srcReg0.text ++ (n.srcReg1.text ++ (n.tail ++ rest))) =
      .next n.srcReg0.value _ :=
    conversion_iff.mpr ⟨n.srcReg0, rfl, rfl, n.srcReg0_fits,
      (Numeral.endsAt_append n.srcReg1.text_ne).mpr n.srcReg0_end⟩
  have hsrcReg1 : convertD (n.srcReg1.text ++ (n.tail ++ rest)) = .next n.srcReg1.value _ :=
    conversion_iff.mpr ⟨n.srcReg1, rfl, rfl, n.srcReg1_fits, h.number⟩
  rw [readInstruction, haddress]
  change (convertD _).andThen _ = _
  rw [hopCode]
  change (convertD _).andThen _ = _
  rw [hdestReg]
  change (convertD _).andThen _ = _
  rw [hsrcReg0]
  change (convertD _).andThen _ = _
  rw [hsrcReg1]
  change Outcome.next _ (skipSpace _) = _
  rw [skipSpace_append n.blank_tail h.space]
  rfl

/-- And what is read as an instruction is a line of it. -/
theorem exists_line (h : readInstruction text = .next t rest) :
    ∃ n : Line, text = n.text ++ rest ∧ n.inst = t ∧ n.EndsAt rest := by
  simp only [readInstruction, Outcome.andThen_eq_next, convertX, convertD, conversion_iff] at h
  obtain ⟨_, _, ⟨address, rfl, rfl, haddress, end0⟩, _, _, ⟨opCode, rfl, rfl, hopCode, end1⟩,
    _, _, ⟨destReg, rfl, rfl, hdestReg, end2⟩, _, _, ⟨srcReg0, rfl, rfl, hsrcReg0, end3⟩,
    _, last, ⟨srcReg1, rfl, rfl, hsrcReg1, end4⟩, hout⟩ := h
  obtain ⟨tail, htail, hlast⟩ := exists_blank last
  cases hout
  refine ⟨⟨address, opCode, destReg, srcReg0, srcReg1, tail,
    (Numeral.endsAt_append opCode.text_ne).mp end0,
    (Numeral.endsAt_append destReg.text_ne).mp end1,
    (Numeral.endsAt_append srcReg0.text_ne).mp end2,
    (Numeral.endsAt_append srcReg1.text_ne).mp end3,
    htail, haddress, hopCode, hdestReg, hsrcReg0, hsrcReg1⟩, ?_, rfl, ?_, ?_⟩
  · simp only [Line.text, List.append_assoc, ← hlast]
  · change srcReg1.EndsAt (tail ++ skipSpace last)
    rw [← hlast]
    exact end4
  · exact avoids_dropWhile _ _

/-! ### Files -/

/-- `text` is written in the lines `ns`, and no further instruction comes behind them. -/
inductive Layout : List Char → List Line → Prop
  | nil {rest : List Char} : readInstruction rest = .ended → Layout rest []
  | cons {n : Line} {ns : List Line} {rest : List Char} :
      n.EndsAt rest → Layout rest ns → Layout (n.text ++ rest) (n :: ns)

theorem yields_iff : Yields readInstruction text tr ↔
    ∃ ns, Layout text ns ∧ ns.map Line.inst = tr := by
  constructor
  · intro h
    induction h with
    | ended h => exact ⟨[], .nil h, rfl⟩
    | next h _ ih =>
      obtain ⟨ns, hns, rfl⟩ := ih
      obtain ⟨n, rfl, rfl, hend⟩ := exists_line h
      exact ⟨n :: ns, .cons hend hns, rfl⟩
  · rintro ⟨ns, h, rfl⟩
    induction h with
    | nil h => exact .ended h
    | @cons n ns rest hend _ ih => exact .next (n.readInstruction_eq hend) ih

/-- Every call takes something off the text. -/
theorem readInstruction_length {r : List Char} {t : TraceInst} {r' : List Char}
    (h : readInstruction r = .next t r') : r'.length < r.length := by
  obtain ⟨n, rfl, -, -⟩ := exists_line h
  have hpos := List.length_pos_of_ne_nil n.text_ne
  rw [List.length_append]
  omega

/-! ### Printed lines -/

/-- The fields of an instruction are in the range of their variables. -/
structure TraceInst.Fits (t : TraceInst) : Prop where
  address : t.instructionAddress < 2 ^ 32
  opCode : fitsInt t.opCode = true
  destReg : fitsInt t.destReg = true
  srcReg0 : fitsInt t.srcReg0 = true
  srcReg1 : fitsInt t.srcReg1 = true

/-- `"%d"` behind a blank. -/
def printedD (z : ℤ) : Field 10 :=
  printed 10 (by decide) (by decide) (blank_singleton (by decide : isSpace ' ' = true)) z

/-- An instruction as the format has it, with one blank for each and a newline behind. -/
def TraceInst.printed (t : TraceInst) (h : t.Fits) : Line where
  address := Scan.printed 16 (by decide) (by decide) blank_nil t.instructionAddress
  opCode := printedD t.opCode
  destReg := printedD t.destReg
  srcReg0 := printedD t.srcReg0
  srcReg1 := printedD t.srcReg1
  tail := [Char.ofNat 10]
  address_end := endsAt_space _ (by decide) _
  opCode_end := endsAt_space _ (by decide) _
  destReg_end := endsAt_space _ (by decide) _
  srcReg0_end := endsAt_space _ (by decide) _
  blank_tail := blank_singleton (by decide)
  address_fits := by
    rw [printed_value, fitsUint, Int.natAbs_natCast]
    exact decide_eq_true h.address
  opCode_fits := by
    rw [printedD, printed_value]
    exact h.opCode
  destReg_fits := by
    rw [printedD, printed_value]
    exact h.destReg
  srcReg0_fits := by
    rw [printedD, printed_value]
    exact h.srcReg0
  srcReg1_fits := by
    rw [printedD, printed_value]
    exact h.srcReg1

theorem TraceInst.inst_printed {t : TraceInst} (h : t.Fits) : (t.printed h).inst = t := by
  have haddress : ((t.instructionAddress : ℤ) % 2 ^ 32).toNat = t.instructionAddress := by
    have := h.address
    omega
  simp only [Line.inst, TraceInst.printed, printedD, printed_value, haddress]

/-- The file of a trace. -/
def printTrace (tr : List TraceInst) (h : ∀ t ∈ tr, t.Fits) : List Char :=
  (tr.pmap TraceInst.printed h).flatMap Line.text

/-- A printed line does not begin with white space. -/
theorem avoids_printTrace : ∀ {tr : List TraceInst} (h : ∀ t ∈ tr, t.Fits),
    Avoids isSpace (printTrace tr h)
  | [], _ => nofun
  | t :: tr, h => by
    rw [printTrace, List.pmap, List.flatMap_cons, Line.text, List.append_assoc]
    exact Numeral.avoids_isSpace _ _

theorem layout_printTrace : ∀ {tr : List TraceInst} (h : ∀ t ∈ tr, t.Fits),
    Layout (printTrace tr h) (tr.pmap TraceInst.printed h)
  | [], _ => .nil rfl
  | t :: tr, h => by
    rw [printTrace, List.pmap, List.flatMap_cons]
    exact .cons ⟨endsAt_space _ (by decide) _, avoids_printTrace _⟩ (layout_printTrace _)

/-- What is printed are the instructions. -/
theorem map_inst_printed (h : ∀ t ∈ tr, t.Fits) :
    (tr.pmap TraceInst.printed h).map Line.inst = tr := by
  have hself : ∀ (t : TraceInst) (ht : t.Fits), (t.printed ht).inst = id t :=
    fun _ ht => TraceInst.inst_printed ht
  simp only [List.map_pmap, hself, List.pmap_eq_map, List.map_id]

/-- The trace files: a text is read as `tr` exactly when it is a layout of `tr`, line by line, in
    any spelling of the numbers and with any white space around them. -/
theorem readTrace_iff : readTrace text = some tr ↔ ∃ ns, Layout text ns ∧ ns.map Line.inst = tr :=
  (loop_iff (fun _ _ _ => readInstruction_length) (Nat.lt_succ_self text.length)).trans yields_iff

end Procsim
