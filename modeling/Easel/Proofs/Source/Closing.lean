import Easel.Proofs.Source.Wrapping

/-!
What a wrapped file can be. The block around the lines ends at the first brace that closes it, and
that need not be the one behind the last line: a file may close the block itself, as long as it
opens something else for the brace behind it to close. A file that is a program of its own never
does.
-/

namespace Easel

namespace Grammar

theorem phrases_expression_begins {depth : Nat} {words : List Word} {tree : Expression}
    (expression : (phrases depth).expression words tree) :
    ∃ word others, words = word :: others ∧ BeginsOperand word := by
  cases depth with
  | zero => exact expression.elim
  | succ depth => exact IsExpression.begins expression

theorem phrases_statement_words_ne_nil {depth : Nat} {words : List Word} {tree : Statement}
    (statement : (phrases depth).statement words tree) : words ≠ [] := by
  cases depth with
  | zero => exact statement.elim
  | succ depth => exact IsStatement.words_ne_nil statement

theorem IsStatement.block_of_brace {depth : Nat} {words more : List Word} {tree : Statement}
    (statement : IsStatement (phrases depth) words tree)
    (begins : words = .symbol "\x7b" :: more) :
    ∃ inside body, more = inside ++ [.symbol "\x7d"] ∧ IsProgram depth inside body ∧
      tree = .block body := by
  cases statement with
  | block braced =>
      cases braced with
      | braced statements => exact ⟨_, _, (List.cons.inj begins).2.symm, statements, rfl⟩
  | definition named defined =>
      rcases named with ⟨name, rest, named⟩
      rw [named] at begins
      cases begins
  | expression evaluated unnamed =>
      rcases phrases_expression_begins evaluated with ⟨word, others, first, operand⟩
      rw [first] at begins
      exact absurd (List.cons.inj begins).1 (operand.ne_symbol (by decide))
  | _ => exact absurd (List.cons.inj begins).1 (by decide)

theorem IsProgram.words_eq_nil_iff {depth : Nat} {words : List Word} {program : Program}
    (derived : IsProgram depth words program) : words = [] ↔ program = [] := by
  cases derived with
  | nil => exact iff_of_true rfl rfl
  | cons head tail =>
      have nonempty := phrases_statement_words_ne_nil head
      exact iff_of_false (mt (fun none => (List.append_eq_nil_iff.mp none).1) nonempty)
        (List.cons_ne_nil _ _)

theorem isProgram_brace_iff {depth : Nat} {more : List Word} {program : Program} :
    IsProgram (depth + 1) (.symbol "\x7b" :: more) program ↔
      ∃ front back body rest, more = front ++ .symbol "\x7d" :: back ∧ IsProgram depth front body ∧
        IsProgram (depth + 1) back rest ∧ program = .block body :: rest := by
  constructor
  · intro derived
    generalize same : Word.symbol "\x7b" :: more = words at derived
    cases derived with
    | nil => cases same
    | @cons words others tree trees head tail =>
        have nonempty : words ≠ [] := IsStatement.words_ne_nil head
        rcases List.exists_cons_of_ne_nil nonempty with ⟨word, following, spelled⟩
        rw [spelled, List.cons_append] at same
        rcases List.cons.inj same with ⟨brace, later⟩
        rw [← brace] at spelled
        rcases IsStatement.block_of_brace head spelled with ⟨inside, body, ends, inner, block⟩
        refine ⟨inside, others, body, trees, ?_, inner, tail, ?_⟩
        · rw [later, ends, List.append_assoc, List.singleton_append]
        · rw [block]
  · intro parts
    rcases parts with ⟨front, back, body, rest, spelled, inner, tail, same⟩
    have block : IsStatement (phrases depth) (.symbol "\x7b" :: front ++ [.symbol "\x7d"])
        (.block body) :=
      .block (.braced inner)
    have whole : Word.symbol "\x7b" :: more =
        (.symbol "\x7b" :: front ++ [.symbol "\x7d"]) ++ back := by
      rw [spelled, List.cons_append, List.cons_append, List.append_assoc, List.singleton_append]
    rw [whole, same]
    exact .cons block tail

end Grammar

namespace Source

open Grammar

/-- A wrapped file begins with a block, and what stands behind the brace of that block, the last
brace included, goes on as a program. -/
theorem parse_wrap_eq_ok_iff {text : String} {program : Program} :
    Program.parse (wrap text) = .ok program ↔
      ∃ front back body rest,
        Token.words (uncommented text).toList ++ [.symbol "\x7d"] =
          front ++ .symbol "\x7d" :: back ∧
        IsProgram (Parser.nestingLimit - 1) front body ∧
        IsProgram Parser.nestingLimit back rest ∧ program = .block body :: rest := by
  rw [Parser.parse_eq_ok_iff_isProgram, words_wrap]
  split
  · next swallowed =>
      constructor
      · intro derived
        rw [List.append_nil] at derived
        exact absurd (List.mem_cons_of_mem _ swallowed) derived.closed
      · intro parts
        rcases parts with ⟨front, back, body, rest, spelled, inner, tail, _⟩
        have member := List.mem_append_left [Word.symbol "\x7d"] swallowed
        rw [spelled, List.mem_append, List.mem_cons] at member
        rcases member with inside | same | behind
        · exact absurd inside inner.closed
        · cases same
        · exact absurd behind tail.closed
  · exact isProgram_brace_iff

theorem parse_wrap_unique {text : String} {program body : Program}
    (read : Program.parse (wrap text) = .ok program)
    (itself : Program.parse (uncommented text) = .ok body) : program = [.block body] := by
  have wrapped := isProgram_wrap itself
  rw [Parser.parse_eq_ok_iff_isProgram] at read
  rw [← Token.map_word_tokenize] at read wrapped
  exact Parser.isProgram_unique (fun _ => Token.isLexed_of_mem_tokenize) read wrapped

/-- A wrapped file that can be read is one block with the statements of the file, or else the file
is no program of its own and closes the block with a brace of its own. Then the first statement is
the block up to there, and the brace behind the last line closes something in the statements that
follow. -/
theorem wrapped_text_is_one_block_or_closes_it (text : String) (program : Program)
    (read : Program.parse (wrap text) = .ok program) :
    (∃ body, program = [.block body] ∧ Program.parse (uncommented text) = .ok body) ∨
      (∀ body, Program.parse (uncommented text) ≠ .ok body) ∧
        ∃ front back body rest,
          Token.words (uncommented text).toList = front ++ .symbol "\x7d" :: back ∧
          IsProgram Parser.nestingLimit front body ∧
          IsProgram Parser.nestingLimit (back ++ [.symbol "\x7d"]) rest ∧
          program = .block body :: rest ∧ rest ≠ [] := by
  rcases parse_wrap_eq_ok_iff.mp read with ⟨front, back, body, rest, spelled, inner, tail, same⟩
  have derived : IsProgram Parser.nestingLimit front body := inner.deepen (Nat.sub_le _ _)
  -- Behind the brace of the block stands nothing, or something that the last brace belongs to.
  rcases List.eq_nil_or_concat' back with none | ⟨others, last, some⟩
  · left
    rw [none] at spelled tail
    have whole : Token.words (uncommented text).toList = front := List.append_cancel_right spelled
    have alone : rest = [] := tail.words_eq_nil_iff.mp rfl
    rw [alone] at same
    exact ⟨body, same, Parser.parse_eq_ok_iff_isProgram.mpr (by rwa [whole])⟩
  · right
    have more : rest ≠ [] := by
      intro alone
      have words := tail.words_eq_nil_iff.mpr alone
      rw [some] at words
      exact absurd words (by simp)
    rw [some, ← List.cons_append, ← List.append_assoc] at spelled
    have parts := List.append_inj' spelled rfl
    constructor
    · intro other itself
      have wrapped := parse_wrap_unique read itself
      rw [same] at wrapped
      exact more (List.cons.inj wrapped).2
    · refine ⟨front, others, body, rest, parts.1, derived, ?_, same, more⟩
      rw [parts.2, ← some]
      exact tail

theorem wrapped_text_is_one_block_or_closes_it_brace :
    Program.parse (wrap "\x7d\x7b") = .ok [.block [], .block []] ∧
      ((∃ body, [.block [], .block []] = [Statement.block body] ∧
        Program.parse (uncommented "\x7d\x7b") = .ok body) ∨
        (∀ body, Program.parse (uncommented "\x7d\x7b") ≠ .ok body) ∧
          ∃ front back body rest,
            Token.words (uncommented "\x7d\x7b").toList = front ++ .symbol "\x7d" :: back ∧
            IsProgram Parser.nestingLimit front body ∧
            IsProgram Parser.nestingLimit (back ++ [.symbol "\x7d"]) rest ∧
            [.block [], .block []] = Statement.block body :: rest ∧ rest ≠ []) := by
  have words : Token.words (uncommented "\x7d\x7b").toList = [.symbol "\x7d", .symbol "\x7b"] := by
    decide +kernel
  have second : IsProgram Parser.nestingLimit [.symbol "\x7b", .symbol "\x7d"] [.block []] :=
    isProgram_brace_iff.mpr ⟨[], [], [], [], rfl, .nil, .nil, rfl⟩
  have read : Program.parse (wrap "\x7d\x7b") = .ok [.block [], .block []] := by
    rw [parse_wrap_eq_ok_iff, words]
    exact ⟨[], _, [], _, rfl, .nil, second, rfl⟩
  exact ⟨read, wrapped_text_is_one_block_or_closes_it "\x7d\x7b" _ read⟩

end Source

end Easel
