import Easel.Proofs.Lexemes.Joining
import Easel.Proofs.Lexemes.Places
import Easel.Proofs.Lexemes.Separation

/-!
Tokens and the lines that they stand in. A token of several lines joined by newlines begins in the
line whose number is its row, at its column. What stands in front of a text moves the places of its
tokens and changes nothing else about them, and a newline with another text behind it adds the
tokens of that text, unless a quote that nothing closes has swallowed it.
-/

namespace Easel

namespace Text

variable {text : List Char}

theorem takeWhile_of_not_mem (unbroken : '\n' ∉ text) : text.takeWhile (· ≠ '\n') = text := by
  apply List.takeWhile_eq_self_iff.mpr
  intro c member
  have different : c ≠ '\n' := fun same => unbroken (same ▸ member)
  simpa using different

theorem rtakeWhile_of_not_mem (unbroken : '\n' ∉ text) : text.rtakeWhile (· ≠ '\n') = text := by
  rw [List.rtakeWhile, takeWhile_of_not_mem (mt List.mem_reverse.mp unbroken), List.reverse_reverse]

theorem takeWhile_prefix_of_prefix {front : List Char} (begins : front <+: text)
    (test : Char → Bool) : front.takeWhile test <+: text.takeWhile test := by
  rcases begins with ⟨rest, rfl⟩
  rw [List.takeWhile_append]
  split
  · exact (List.takeWhile_prefix test).trans (List.prefix_append front _)
  · exact List.prefix_rfl

theorem rtakeWhile_append_newline (front back : List Char) :
    (front ++ '\n' :: back).rtakeWhile (· ≠ '\n') = back.rtakeWhile (· ≠ '\n') := by
  have turned : (front ++ '\n' :: back).reverse = back.reverse ++ '\n' :: front.reverse := by simp
  rw [List.rtakeWhile, List.rtakeWhile, turned, Token.takeWhile_append_stop (by decide)]

end Text

namespace Position

/-- One column further to the right in the first row, and the same place in any other. -/
def indent (position : Position) : Position :=
  if position.row = 1 then { position with col := position.col + 1 } else position

theorem row_indent (position : Position) : position.indent.row = position.row := by
  unfold indent
  split <;> rfl

/-- A character of one byte in front of a text indents its first row. -/
theorem behind_cons {c : Char} (narrow : c.utf8Size = 1) (unbroken : c ≠ '\n') (text : List Char) :
    behind (c :: text) = (behind text).indent := by
  have counted : (c :: text).count '\n' = text.count '\n' := List.count_cons_of_ne unbroken
  by_cases broken : '\n' ∈ text
  · have below : ¬(behind text).row = 1 := by
      have some : 0 < text.count '\n' := List.count_pos_iff.mpr broken
      simp only [behind]
      omega
    have line : (c :: text).rtakeWhile (· ≠ '\n') = text.rtakeWhile (· ≠ '\n') := by
      rcases List.append_of_mem broken with ⟨front, back, rfl⟩
      rw [← List.cons_append, Text.rtakeWhile_append_newline, Text.rtakeWhile_append_newline]
    rw [indent, if_neg below, behind, counted, line]
    rfl
  · have first : (behind text).row = 1 := by
      rw [behind, List.count_eq_zero.mpr broken]
    have unbrokenToo : '\n' ∉ c :: text := by
      simpa using ⟨Ne.symm unbroken, broken⟩
    rw [indent, if_pos first, behind, behind, counted, Text.rtakeWhile_of_not_mem broken,
      Text.rtakeWhile_of_not_mem unbrokenToo, Text.size_cons, narrow, Nat.add_assoc,
      Nat.add_comm 1 (Text.size text)]

end Position

namespace Token

open Position (behind)

theorem scanAll_moved {front : List Char} {move : Position → Position}
    (moves : ∀ text, behind (front ++ text) = move (behind text)) (before characters : List Char) :
    scanAll [] (.behind (front ++ before)) characters =
      (scanAll [] (.behind before) characters).map fun token =>
        { token with position := move token.position } := by
  fun_induction words characters generalizing before with
  | case1 => rw [scanAll_nil, scanAll_nil, List.reverse_nil, List.map_nil]
  | case2 c following blank induction =>
      rw [scanAll_blank blank, scanAll_blank blank, List.append_assoc, induction]
  | case3 c following mark induction =>
      have visible : isBlank c = false := by simpa using mark
      rw [scanAll_visible visible, scanAll_visible visible, List.append_assoc, induction, moves]
      rfl

theorem scan_of_isUnclosed {c : Char} {following : List Char}
    (unclosed : (scan c following).IsUnclosed) : c = '"' ∧ '"' ∉ following := by
  cases splits_scan c following with
  | matched parts longest =>
      have matched := longest.matched
      rw [unclosed.1] at matched
      exact matched.elim
  | refused d parts unquoted illegal unmatched =>
      rw [unclosed.2] at illegal
      exact absurd (List.cons.inj illegal.2).1.symm unquoted
  | unclosed others parts absent illegal unmatched =>
      cases parts
      exact ⟨rfl, absent⟩

theorem parts_of_terminated {c : Char} {following : List Char}
    (terminated : ¬(scan c following).IsUnclosed) :
    c :: following = (scan c following).lexeme ++ (scan c following).rest := by
  cases splits_scan c following with
  | matched parts longest => exact parts
  | refused d parts unquoted illegal unmatched =>
      rw [illegal.2]
      exact parts
  | unclosed others parts absent illegal unmatched =>
      rw [illegal] at terminated
      exact absurd ⟨rfl, rfl⟩ terminated

/-- A lexeme is what the text begins with, also that of a quote that swallows the rest. -/
theorem lexeme_prefix (c : Char) (following : List Char) :
    (scan c following).lexeme <+: c :: following := by
  by_cases unclosed : (scan c following).IsUnclosed
  · rw [unclosed.2, (scan_of_isUnclosed unclosed).1]
    exact ⟨following, rfl⟩
  · exact ⟨_, (parts_of_terminated unclosed).symm⟩

instance : DecidablePred IsUnclosed := fun token =>
  inferInstanceAs (Decidable (token.kind = .illegal ∧ token.lexeme = "\""))

section Newline

variable {before characters rest : List Char}

theorem isUnclosed_token_iff {scanned : Scan} {position : Position} :
    IsUnclosed ⟨scanned.kind, String.ofList scanned.lexeme, position⟩ ↔ scanned.IsUnclosed := by
  constructor
  · exact fun unclosed => ⟨unclosed.1, eq_quote_of_ofList unclosed.2⟩
  · intro unclosed
    exact ⟨unclosed.1, by rw [unclosed.2]⟩

theorem scanAll_append_newline
    (closed : ∀ token ∈ scanAll [] (.behind before) characters, ¬token.IsUnclosed) :
    scanAll [] (.behind before) (characters ++ '\n' :: rest) =
      scanAll [] (.behind before) characters ++
        scanAll [] (.behind (before ++ characters ++ ['\n'])) rest := by
  fun_induction words characters generalizing before with
  | case1 =>
      rw [List.nil_append, scanAll_blank (by decide), scanAll_nil, List.append_nil]
      rfl
  | case2 c following blank induction =>
      rw [scanAll_blank blank] at closed ⊢
      rw [List.cons_append, scanAll_blank blank, induction closed]
      simp
  | case3 c following mark induction =>
      have visible : isBlank c = false := by simpa using mark
      rw [scanAll_visible visible] at closed ⊢
      rcases List.forall_mem_cons.mp closed with ⟨first, later⟩
      have terminated : ¬(scan c following).IsUnclosed := mt isUnclosed_token_iff.mpr first
      rw [List.cons_append, scanAll_visible visible,
        scan_append_newline c following rest terminated]
      simp only [Scan.before]
      rw [induction later, parts_of_terminated terminated]
      simp

theorem scanAll_append_unclosed
    (unclosed : ∃ token ∈ scanAll [] (.behind before) characters, token.IsUnclosed)
    (unquoted : '"' ∉ rest) :
    scanAll [] (.behind before) (characters ++ '\n' :: rest) =
      scanAll [] (.behind before) characters := by
  fun_induction words characters generalizing before with
  | case1 =>
      rw [scanAll_nil] at unclosed
      rcases unclosed with ⟨token, member, _⟩
      cases member
  | case2 c following blank induction =>
      rw [scanAll_blank blank] at unclosed ⊢
      rw [List.cons_append, scanAll_blank blank, induction unclosed]
  | case3 c following mark induction =>
      have visible : isBlank c = false := by simpa using mark
      rw [List.cons_append, scanAll_visible visible]
      rw [scanAll_visible visible] at unclosed ⊢
      by_cases here : (scan c following).IsUnclosed
      · rcases scan_of_isUnclosed here with ⟨rfl, absent⟩
        have absentToo : '"' ∉ following ++ '\n' :: rest := by
          simpa using ⟨absent, unquoted⟩
        rw [scan, scan, if_pos rfl, if_pos rfl, scanText_unclosed absent,
          scanText_unclosed absentToo]
      · rw [scan_append_newline c following rest here]
        simp only [Scan.before]
        rw [induction]
        rcases unclosed with ⟨token, member, unclosed⟩
        rcases List.mem_cons.mp member with rfl | later
        · exact absurd (isUnclosed_token_iff.mp unclosed) here
        · exact ⟨token, later, unclosed⟩

end Newline

end Token

namespace Text

/-- A character that is no newline stands in the first line or behind the end of it. -/
theorem line_or_behind {line rest skipped following : List Char} {c : Char} (visible : c ≠ '\n')
    (parts : line ++ '\n' :: rest = skipped ++ c :: following) :
    (∃ more, line = skipped ++ c :: more ∧ following = more ++ '\n' :: rest) ∨
      ∃ more, skipped = line ++ '\n' :: more ∧ rest = more ++ c :: following := by
  rcases List.append_eq_append_iff.mp parts with ⟨more, front, back⟩ | ⟨more, front, back⟩
  · cases more with
    | nil => exact absurd (List.cons.inj back).1.symm visible
    | cons newline more =>
        rw [List.cons_append] at back
        rcases List.cons.inj back with ⟨rfl, joined⟩
        exact .inr ⟨more, front, joined⟩
  · cases more with
    | nil => exact absurd (List.cons.inj back).1 visible
    | cons first more =>
        rw [List.cons_append] at back
        rcases List.cons.inj back with ⟨rfl, joined⟩
        exact .inl ⟨more, front, joined⟩

section Lines

variable {lines : List (List Char)} (unbroken : ∀ line ∈ lines, '\n' ∉ line)
include unbroken

theorem count_newline_joined : (['\n'].intercalate lines).count '\n' = lines.length - 1 := by
  induction lines with
  | nil => rfl
  | cons line others induction =>
      have here : line.count '\n' = 0 := List.count_eq_zero.mpr (unbroken line List.mem_cons_self)
      have later := induction fun other member => unbroken other (List.mem_cons_of_mem line member)
      cases others with
      | nil =>
          rw [List.intercalate_singleton, here]
          rfl
      | cons next others =>
          rw [List.intercalate_cons_cons, List.count_append, List.count_append, here, later]
          simp
          omega

theorem exists_line {skipped following : List Char} {c : Char} (visible : c ≠ '\n')
    (parts : ['\n'].intercalate lines = skipped ++ c :: following) :
    lines[skipped.count '\n']? =
      some (skipped.rtakeWhile (· ≠ '\n') ++ (c :: following).takeWhile (· ≠ '\n')) := by
  induction lines generalizing skipped with
  | nil => cases skipped <;> cases parts
  | cons line others induction =>
      have here : '\n' ∉ line := unbroken line List.mem_cons_self
      have unbrokenLater : ∀ other ∈ others, '\n' ∉ other :=
        fun other member => unbroken other (List.mem_cons_of_mem line member)
      have inside : ∀ more, line = skipped ++ c :: more →
          skipped.count '\n' = 0 ∧ skipped.rtakeWhile (· ≠ '\n') = skipped ∧
            (c :: more).takeWhile (· ≠ '\n') = c :: more := by
        intro more whole
        rw [whole, List.mem_append, not_or] at here
        exact ⟨List.count_eq_zero.mpr here.1, rtakeWhile_of_not_mem here.1,
          takeWhile_of_not_mem here.2⟩
      cases others with
      | nil =>
          rw [List.intercalate_singleton] at parts
          rcases inside following parts with ⟨first, front, behind⟩
          rw [first, front, behind, ← parts]
          rfl
      | cons next others =>
          rw [List.intercalate_cons_cons, List.append_assoc, List.singleton_append] at parts
          rcases line_or_behind visible parts with ⟨more, whole, rfl⟩ | ⟨more, rfl, joined⟩
          · rcases inside more whole with ⟨first, front, behind⟩
            rw [first, front, ← List.cons_append, Token.takeWhile_append_stop (by decide), behind,
              ← whole]
            rfl
          · rw [rtakeWhile_append_newline, List.count_append, List.count_eq_zero.mpr here,
              List.count_cons_self, Nat.zero_add, List.getElem?_cons_succ]
            exact induction unbrokenLater joined

end Lines

end Text

end Easel
