import Ece116c.Lib.Reading
import Ece116c.Lib.Scan

/-! The words of a text, as `>>` to a string takes them: white space is skipped, and a word goes as
    far as there is none. Every text is words and white space in one way only. -/

namespace Scan
open Reading

/-- One `>>`. -/
def readWord (l : List Char) : Outcome (List Char) (List Char) :=
  if skipSpace l = [] then .ended
  else .next ((skipSpace l).takeWhile fun c => !isSpace c)
    ((skipSpace l).dropWhile fun c => !isSpace c)

def words (text : List Char) : Option (List (List Char)) := loop readWord (text.length + 1) text

/-- Characters of which none is white space. -/
structure IsWord (w : List Char) : Prop where
  ne : w ≠ []
  solid : ∀ c ∈ w, isSpace c = false

/-- `text` is the words `ws`, each behind any white space and up to some. -/
inductive Spaced : List Char → List (List Char) → Prop
  | nil {blank : List Char} : Blank blank → Spaced blank []
  | cons {blank w rest : List Char} {ws : List (List Char)} : Blank blank → IsWord w →
      Avoids (fun c => !isSpace c) rest → Spaced rest ws → Spaced (blank ++ (w ++ rest)) (w :: ws)

variable {l w rest text : List Char} {ws : List (List Char)}

theorem IsWord.avoids (h : IsWord w) (rest : List Char) : Avoids isSpace (w ++ rest) := by
  obtain ⟨c, cs, rfl⟩ := List.exists_cons_of_ne_nil h.ne
  intro x hx
  obtain rfl := Option.some.inj hx
  exact h.solid _ (List.mem_cons_self ..)

theorem readWord_ended (h : Blank l) : readWord l = .ended :=
  if_pos (List.dropWhile_eq_nil_iff.mpr h)

theorem blank_of_ended (h : readWord l = .ended) : Blank l := by
  unfold readWord at h
  split at h
  · rename_i hnil
    obtain ⟨blank, hblank, hl⟩ := exists_blank l
    rwa [hl, hnil, List.append_nil]
  · cases h

theorem readWord_eq {blank : List Char} (hblank : Blank blank) (hw : IsWord w)
    (hrest : Avoids (fun c => !isSpace c) rest) :
    readWord (blank ++ (w ++ rest)) = .next w rest := by
  have hskip : skipSpace (blank ++ (w ++ rest)) = w ++ rest := skipSpace_append hblank (hw.avoids _)
  have hsolid : ∀ c ∈ w, (!isSpace c) = true := by
    intro c hc
    rw [hw.solid c hc]
    rfl
  rw [readWord, hskip, if_neg (by simp [hw.ne]), List.takeWhile_append_of_pos hsolid,
    List.dropWhile_append_of_pos hsolid, takeWhile_of_avoids hrest, dropWhile_of_avoids hrest,
    List.append_nil]

theorem exists_word (h : readWord l = .next w rest) :
    ∃ blank, Blank blank ∧ IsWord w ∧ Avoids (fun c => !isSpace c) rest ∧
      l = blank ++ (w ++ rest) := by
  obtain ⟨blank, hblank, hl⟩ := exists_blank l
  unfold readWord at h
  split at h
  · cases h
  · rename_i hne
    obtain ⟨hw, hrest⟩ := Outcome.next.inj h
    have hsplit : w ++ rest = skipSpace l := by
      rw [← hw, ← hrest, List.takeWhile_append_dropWhile]
    refine ⟨blank, hblank, ⟨?_, ?_⟩, ?_, ?_⟩
    · -- the first character behind the white space is none
      obtain ⟨c, cs, hc⟩ := List.exists_cons_of_ne_nil hne
      have hfirst : isSpace c = false := avoids_dropWhile isSpace l c (by rw [← skipSpace, hc]; rfl)
      rw [← hw, hc, List.takeWhile_cons, hfirst]
      exact List.cons_ne_nil _ _
    · intro c hc
      rw [← hw] at hc
      simpa using List.mem_takeWhile_imp hc
    · rw [← hrest]
      exact avoids_dropWhile _ _
    · rw [hsplit, ← hl]

theorem yields_words_iff : Yields readWord text ws ↔ Spaced text ws := by
  constructor
  · intro h
    induction h with
    | ended h => exact .nil (blank_of_ended h)
    | next h _ ih =>
      obtain ⟨blank, hblank, hw, hrest, rfl⟩ := exists_word h
      exact .cons hblank hw hrest ih
  · intro h
    induction h with
    | nil hblank => exact .ended (readWord_ended hblank)
    | cons hblank hw hrest _ ih => exact .next (readWord_eq hblank hw hrest) ih

theorem readWord_length (h : readWord l = .next w rest) : rest.length < l.length := by
  obtain ⟨blank, -, hw, -, rfl⟩ := exists_word h
  have hpos := List.length_pos_of_ne_nil hw.ne
  simp only [List.length_append]
  omega

theorem words_iff : words text = some ws ↔ Spaced text ws :=
  (loop_iff (fun _ _ _ => readWord_length) (Nat.lt_succ_self text.length)).trans yields_words_iff

/-- Every text has words. -/
theorem exists_words (text : List Char) : ∃ ws, words text = some ws := by
  simp only [words_iff]
  induction hn : text.length using Nat.strong_induction_on generalizing text with
  | _ n ih =>
    cases h : readWord text with
    | failed => unfold readWord at h; split at h <;> cases h
    | ended => exact ⟨[], .nil (blank_of_ended h)⟩
    | next w rest =>
      have hlt := readWord_length h
      obtain ⟨ws, hws⟩ := ih rest.length (hn ▸ hlt) rest rfl
      obtain ⟨blank, hblank, hw, hrest, rfl⟩ := exists_word h
      exact ⟨w :: ws, .cons hblank hw hrest hws⟩

theorem Spaced.space_cons {c : Char} (hc : isSpace c = true) (h : Spaced text ws) :
    Spaced (c :: text) ws := by
  have hblank : ∀ {blank : List Char}, Blank blank → Blank (c :: blank) := by
    intro blank hblank x hx
    rcases List.mem_cons.mp hx with rfl | hx
    · exact hc
    · exact hblank x hx
  cases h with
  | nil hb => exact .nil (hblank hb)
  | cons hb hw hrest h => exact @Spaced.cons (c :: _) _ _ _ (hblank hb) hw hrest h

theorem Spaced.isWord (h : Spaced text ws) : ∀ w ∈ ws, IsWord w := by
  induction h with
  | nil => simp
  | cons _ hw _ _ ih =>
    simp only [List.mem_cons, forall_eq_or_imp]
    exact ⟨hw, ih⟩

/-- Words with a separator behind each. -/
theorem spaced_flatMap {c : Char} (hc : isSpace c = true) (h : ∀ w ∈ ws, IsWord w) :
    Spaced (ws.flatMap fun w => w ++ [c]) ws := by
  induction ws with
  | nil => exact .nil blank_nil
  | cons w ws ih =>
    simp only [List.mem_cons, forall_eq_or_imp] at h
    rw [List.flatMap_cons, List.append_assoc]
    refine @Spaced.cons [] _ _ _ blank_nil h.1 ?_ ((ih h.2).space_cons hc)
    intro x hx
    obtain rfl := Option.some.inj hx
    simp [hc]

theorem isWord_digits {base n : ℕ} (h1 : 1 < base) (hb : base ≤ 16) : IsWord (digits base n) :=
  ⟨digits_ne base n, fun c hc => isSpace_of_digit (isDigit_digits h1 hb n c hc)⟩

end Scan
