import Easel.Proofs.Lexemes

/-!
Texts that are joined by a newline. No lexeme but a text literal holds a newline, and no pair of
operator characters has one, so a newline parts the words before it from those behind it. The one
exception is a literal that the first text opens and does not close.
-/

namespace Easel.Token

section Runs

variable {p : Char → Bool} {stop : Char}

theorem takeWhile_append_stop (stops : p stop = false) (front rest : List Char) :
    (front ++ stop :: rest).takeWhile p = front.takeWhile p := by
  induction front with
  | nil => simp [stops]
  | cons c front induction =>
      rw [List.cons_append, List.takeWhile_cons, List.takeWhile_cons, induction]

theorem dropWhile_append_stop (stops : p stop = false) (front rest : List Char) :
    (front ++ stop :: rest).dropWhile p = front.dropWhile p ++ stop :: rest := by
  induction front with
  | nil => simp [stops]
  | cons c front induction =>
      rw [List.cons_append, List.dropWhile_cons, List.dropWhile_cons]
      split
      · exact induction
      · rfl

end Runs

/-- The scan with more text behind what it leaves. -/
def Scan.before (scanned : Scan) (more : List Char) : Scan :=
  { scanned with rest := scanned.rest ++ more }

/-- An opening quote that nothing closes. -/
def Scan.IsUnclosed (scanned : Scan) : Prop :=
  scanned.kind = .illegal ∧ scanned.lexeme = ['"']

theorem scanText_closed {content : List Char} (unquoted : '"' ∉ content) (rest : List Char) :
    scanText (content ++ '"' :: rest) = ⟨.text, '"' :: content ++ ['"'], rest⟩ := by
  have inside : ∀ c ∈ content, decide (c ≠ '"') = true := by
    intro c member
    have different : c ≠ '"' := fun same => unquoted (same ▸ member)
    simpa using different
  have stops : decide ('"' ≠ '"') = false := by decide
  unfold scanText
  rw [takeWhile_append_stop stops, dropWhile_append_stop stops,
    List.takeWhile_eq_self_iff.mpr inside, List.dropWhile_eq_nil_iff.mpr inside]
  rfl

theorem scanText_unclosed {following : List Char} (unquoted : '"' ∉ following) :
    scanText following = ⟨.illegal, ['"'], []⟩ := by
  have nothing : following.dropWhile (· ≠ '"') = [] := by
    apply List.dropWhile_eq_nil_iff.mpr
    intro c member
    have different : c ≠ '"' := fun same => unquoted (same ▸ member)
    simpa using different
  rw [scanText, nothing]

theorem scanText_append (following more : List Char) (closed : ¬(scanText following).IsUnclosed) :
    scanText (following ++ more) = (scanText following).before more := by
  by_cases quoted : '"' ∈ following
  · obtain ⟨content, rest, rfl, unquoted⟩ := List.eq_append_cons_of_mem quoted
    rw [List.append_assoc, List.cons_append, scanText_closed unquoted, scanText_closed unquoted]
    rfl
  · rw [scanText_unclosed quoted] at closed
    exact absurd ⟨rfl, rfl⟩ closed

theorem scanWord_append_newline (characters rest : List Char) :
    scanWord (characters ++ '\n' :: rest) = (scanWord characters).before ('\n' :: rest) := by
  have stops : isLetter '\n' = false := by decide
  rw [scanWord, scanWord, takeWhile_append_stop stops, dropWhile_append_stop stops]
  rfl

theorem scanNumber_append_newline (characters rest : List Char) :
    scanNumber (characters ++ '\n' :: rest) = (scanNumber characters).before ('\n' :: rest) := by
  have stops : '\n'.isDigit = false := by decide
  unfold scanNumber
  rw [takeWhile_append_stop stops, dropWhile_append_stop stops]
  cases characters.dropWhile Char.isDigit with
  | nil => rfl
  | cons c following =>
      by_cases point : c = '.'
      · subst point
        simp only [List.cons_append, takeWhile_append_stop stops, dropWhile_append_stop stops]
        rfl
      · simp [point, Scan.before]

theorem scanMark_append_newline (c : Char) (following rest : List Char) :
    scanMark c (following ++ '\n' :: rest) = (scanMark c following).before ('\n' :: rest) := by
  cases following with
  | nil =>
      have alone : operatorPairs.contains (c, '\n') = false := by
        have seconds : ∀ pair ∈ operatorPairs, pair.2 ≠ '\n' := by decide
        rw [Bool.eq_false_iff]
        intro pair
        exact seconds (c, '\n') (List.contains_iff_mem.mp pair) rfl
      rw [List.nil_append, scanMark, if_neg (by rw [alone]; decide)]
      rfl
  | cons second following =>
      rw [List.cons_append, scanMark, scanMark]
      split
      · rfl
      · rfl

theorem scan_append_newline (c : Char) (following rest : List Char)
    (closed : ¬(scan c following).IsUnclosed) :
    scan c (following ++ '\n' :: rest) = (scan c following).before ('\n' :: rest) := by
  unfold scan at closed ⊢
  split
  · next quote =>
      rw [if_pos quote] at closed
      exact scanText_append following _ closed
  · split
    · exact scanWord_append_newline (c :: following) rest
    · split
      · exact scanNumber_append_newline (c :: following) rest
      · exact scanMark_append_newline c following rest

/-- The words of a text stay the same if a newline and another text follow it. -/
theorem words_append_newline {characters : List Char} (rest : List Char)
    (closed : ⟨.illegal, "\""⟩ ∉ words characters) :
    words (characters ++ '\n' :: rest) = words characters ++ words rest := by
  fun_induction words characters with
  | case1 => rw [List.nil_append, words, if_pos (by decide), List.nil_append]
  | case2 c following blank induction =>
      rw [List.cons_append, words, if_pos blank]
      exact induction closed
  | case3 c following mark induction =>
      rw [List.mem_cons, not_or] at closed
      obtain ⟨different, later⟩ := closed
      have terminated : ¬(scan c following).IsUnclosed := by
        rintro ⟨kind, lexeme⟩
        exact different (by rw [kind, lexeme])
      rw [List.cons_append, words, if_neg mark, scan_append_newline c following rest terminated]
      simp only [Scan.before, List.cons_append]
      rw [induction later]

end Easel.Token
