import Easel.Proofs.Interpreter.Pieces
import Easel.Proofs.Lexemes.Lines
import Easel.Proofs.Parser.Depth
import Easel.Source.Wrap

/-!
What wrapping a file does to it. The block around the lines takes one column of the first row and a
row behind the last, and a comment leaves its row empty, so the tokens of a file keep their rows,
and the row of a token is the number of the line that it begins in. The statements of the file are
those of the block, as long as there is room for one level more.
-/

namespace Easel

namespace Text

theorem newline_not_mem_withoutReturn {reversed : List Char} (unbroken : '\n' ∉ reversed) :
    '\n' ∉ withoutReturn reversed := by
  unfold withoutReturn
  split
  · exact fun member => unbroken (List.mem_cons_of_mem _ (List.mem_reverse.mp member))
  · exact fun member => unbroken (List.mem_reverse.mp member)

theorem newline_not_mem_linesFrom {reversed characters : List Char} (unbroken : '\n' ∉ reversed) :
    ∀ line ∈ linesFrom reversed characters, '\n' ∉ line := by
  fun_induction linesFrom reversed characters with
  | case1 => exact List.forall_mem_nil _
  | case2 reversed some =>
      rw [List.forall_mem_singleton]
      exact fun member => unbroken (List.mem_reverse.mp member)
  | case3 reversed rest induction =>
      exact List.forall_mem_cons.mpr ⟨newline_not_mem_withoutReturn unbroken, induction (by simp)⟩
  | case4 reversed c rest other induction =>
      apply induction
      simpa using ⟨Ne.symm other, unbroken⟩

end Text

namespace Source

def uncommented (text : String) : String :=
  "\n".intercalate ((Text.lines text).map uncomment)

def keptLines (text : String) : List (List Char) :=
  (Text.lines text).map fun line => (uncomment line).toList

theorem toList_uncommented (text : String) :
    (uncommented text).toList = ['\n'].intercalate (keptLines text) := by
  rw [uncommented, String.toList_intercalate, List.map_map]
  rfl

theorem newline_not_mem_keptLines (text : String) : ∀ line ∈ keptLines text, '\n' ∉ line := by
  intro line member
  rcases List.mem_map.mp member with ⟨kept, fromText, rfl⟩
  rcases List.mem_map.mp fromText with ⟨characters, found, rfl⟩
  have unbroken := Text.newline_not_mem_linesFrom (List.not_mem_nil) characters found
  unfold uncomment
  split
  · exact List.not_mem_nil
  · rwa [String.toList_ofList]

theorem toList_wrap (text : String) :
    (wrap text).toList = '{' :: ((uncommented text).toList ++ '\n' :: ['}']) := by
  simp [wrap, uncommented]

def indented (token : Token) : Token :=
  { token with position := token.position.indent }

def closing (text : String) : Token :=
  ⟨.symbol, "\x7d", ⟨max 1 (Text.lines text).length + 1, 1⟩⟩

theorem count_newline_uncommented (text : String) :
    (uncommented text).toList.count '\n' = (Text.lines text).length - 1 := by
  rw [toList_uncommented, Text.count_newline_joined (newline_not_mem_keptLines text), keptLines,
    List.length_map]

theorem scanAll_closing (text : String) :
    Token.scanAll [] (.behind (['{'] ++ (uncommented text).toList ++ ['\n'])) ['}'] =
      [closing text] := by
  have row : 1 + (['{'] ++ (uncommented text).toList ++ ['\n']).count '\n' =
      max 1 (Text.lines text).length + 1 := by
    simp only [List.count_append, count_newline_uncommented]
    simp
    omega
  have place : Position.behind (['{'] ++ (uncommented text).toList ++ ['\n']) =
      ⟨max 1 (Text.lines text).length + 1, 1⟩ := by
    rw [Position.behind, row, Text.rtakeWhile_append_newline]
    rfl
  rw [Token.scanAll_visible (by decide), Token.scan_symbol (by decide), Token.scanAll_nil, place]
  rfl

theorem scanAll_indented (characters : List Char) :
    Token.scanAll [] (.behind ['{']) characters =
      (Token.scanAll [] (.behind []) characters).map indented := by
  have moves : ∀ text, Position.behind (['{'] ++ text) = (Position.behind text).indent :=
    fun text => Position.behind_cons (by decide) (by decide) text
  have moved := Token.scanAll_moved moves [] characters
  rwa [List.append_nil] at moved

theorem tokenize_wrap (text : String) :
    Token.tokenize (wrap text) =
      ⟨.symbol, "\x7b", ⟨1, 1⟩⟩ :: (Token.tokenize (uncommented text)).map indented ++
        if ∃ token ∈ Token.tokenize (uncommented text), token.IsUnclosed then []
        else [closing text] := by
  have opened : Token.tokenize (wrap text) = ⟨.symbol, "\x7b", ⟨1, 1⟩⟩ ::
      Token.scanAll [] (.behind ['{']) ((uncommented text).toList ++ '\n' :: ['}']) := by
    rw [Token.tokenize, toList_wrap]
    change Token.scanAll [] (.behind []) _ = _
    rw [Token.scanAll_visible (by decide), Token.scan_symbol (by decide)]
    rfl
  have inside := scanAll_indented (uncommented text).toList
  rw [opened, List.cons_append]
  congr 1
  split
  · next unclosed =>
      rw [Token.scanAll_append_unclosed _ (by decide), inside, List.append_nil]
      · rfl
      · rw [inside]
        rcases unclosed with ⟨token, member, unclosed⟩
        exact ⟨indented token, List.mem_map_of_mem member, unclosed⟩
  · next closed =>
      rw [Token.scanAll_append_newline, scanAll_closing, inside]
      · rfl
      · rw [inside, List.forall_mem_map]
        exact fun token member unclosed => closed ⟨token, member, unclosed⟩

/-- A token begins in the line that its row numbers, behind as many bytes as its column counts, and
the line goes on with the token, or with as much of it as stands in one line. -/
def BeginsIn (text : String) (token : Token) : Prop :=
  ∃ number line front rest, (Text.lines text)[number]? = some line ∧ line.startsWith "#" = false ∧
    line.toList = front ++ rest ∧ token.position = ⟨number + 1, Text.size front + 1⟩ ∧
    rest ≠ [] ∧ token.lexeme.toList.takeWhile (· ≠ '\n') <+: rest

theorem beginsIn_of_mem_tokenize {text : String} {token : Token}
    (member : token ∈ Token.tokenize (uncommented text)) : BeginsIn text token := by
  rcases List.append_of_mem member with ⟨found, later, read⟩
  rcases Token.exists_start [] read with ⟨skipped, c, following, parts, visible, same, _⟩
  have unbroken : c ≠ '\n' := by
    intro newline
    rw [newline] at visible
    exact absurd visible (by decide)
  rw [toList_uncommented] at parts
  have placed := Text.exists_line (newline_not_mem_keptLines text) unbroken parts
  rw [keptLines, List.getElem?_map] at placed
  rcases Option.map_eq_some_iff.mp placed with ⟨line, here, whole⟩
  have goesOn : (c :: following).takeWhile (· ≠ '\n') ≠ [] := by
    rw [List.takeWhile_cons, if_pos (decide_eq_true unbroken)]
    exact List.cons_ne_nil c _
  have uncommentedLine : line.startsWith "#" = false := by
    by_contra comment
    rw [uncomment, if_pos (by simpa using comment)] at whole
    exact goesOn (List.append_eq_nil_iff.mp whole.symm).2
  rw [uncomment, if_neg (by rw [uncommentedLine]; decide)] at whole
  refine ⟨skipped.count '\n', line, _, _, here, uncommentedLine, whole, ?_, goesOn, ?_⟩
  · rw [same, List.nil_append, Position.behind, Nat.add_comm 1, Nat.add_comm 1]
  · rw [same, String.toList_ofList]
    exact Text.takeWhile_prefix_of_prefix (Token.lexeme_prefix c following) _

/-- The words of the file stand between braces, unless a quote swallows the second one. -/
theorem words_wrap (text : String) :
    Token.words (wrap text).toList = .symbol "\x7b" :: (Token.words (uncommented text).toList ++
      if ⟨.illegal, "\""⟩ ∈ Token.words (uncommented text).toList then []
      else [.symbol "\x7d"]) := by
  have unclosed : ∀ token : Token, token.IsUnclosed ↔ token.word = ⟨.illegal, "\""⟩ := by
    intro token
    rw [Token.IsUnclosed, Token.word, Word.mk.injEq]
  rw [← Token.map_word_tokenize, tokenize_wrap, ← Token.map_word_tokenize, List.cons_append,
    List.map_cons, List.map_append, List.map_map]
  simp only [unclosed, List.mem_map]
  congr 2
  split <;> rfl

theorem isProgram_wrap {text : String} {program : Program}
    (parsed : Program.parse (uncommented text) = .ok program) :
    Grammar.IsProgram (Parser.nestingLimit + 1) (Token.words (wrap text).toList)
      [.block program] := by
  have derived := Parser.parse_eq_ok_iff_isProgram.mp parsed
  have words : Token.words (wrap text).toList =
      (.symbol "\x7b" :: Token.words (uncommented text).toList ++ [.symbol "\x7d"]) ++ [] := by
    rw [words_wrap, if_neg derived.closed, List.append_nil]
    rfl
  rw [words]
  exact .cons (.block (.braced derived)) .nil

/-- Between the braces stand the tokens of the lines, each in the row of its line, and the statements
of the lines are those of the block. -/
theorem wrapping_keeps_tokens_lines_and_statements (text : String) :
    let tokens := Token.tokenize (uncommented text)
    (Token.tokenize (wrap text) = ⟨.symbol, "\x7b", ⟨1, 1⟩⟩ :: tokens.map indented ++
      if ∃ token ∈ tokens, token.IsUnclosed then [] else [closing text]) ∧
      (∀ token ∈ tokens, BeginsIn text token ∧
        (indented token).position.row = token.position.row) ∧
      ∀ program, Program.parse (uncommented text) = .ok program →
        Program.parse (wrap text) = .ok [.block program] ∨
          ∃ position, Program.parse (wrap text) =
            .error (.tooDeep position Parser.nestingLimit) := by
  intro tokens
  refine ⟨tokenize_wrap text, ?_, ?_⟩
  · intro token member
    exact ⟨beginsIn_of_mem_tokenize member, token.position.row_indent⟩
  · intro program parsed
    have derived := isProgram_wrap parsed
    rw [← Token.map_word_tokenize] at derived
    exact Parser.ofTokens_of_isProgram (fun _ => Token.isLexed_of_mem_tokenize) derived

theorem wrapping_keeps_tokens_lines_and_statements_literal :
    let text := "# é\r\nx = \"a\r\nb\";\n"
    ∃ program, Program.parse (uncommented text) = .ok program ∧ program ≠ [] ∧
      (Program.parse (wrap text) = .ok [.block program] ∨
        ∃ position, Program.parse (wrap text) =
          .error (.tooDeep position Parser.nestingLimit)) := by
  intro text
  have reads : ∃ program, Program.parse (uncommented text) = .ok program ∧ program ≠ [] := by
    decide +kernel
  rcases reads with ⟨program, parsed, some⟩
  have wrapped := (wrapping_keeps_tokens_lines_and_statements text).2.2 program parsed
  exact ⟨program, parsed, some, wrapped⟩

-- An empty file has two rows, and a literal that nothing closes swallows the second.
example : Token.tokenize (wrap "") =
    [⟨.symbol, "\x7b", ⟨1, 1⟩⟩, ⟨.symbol, "\x7d", ⟨2, 1⟩⟩] := by
  decide +kernel

example : Token.tokenize (wrap "x\"") =
    [⟨.symbol, "\x7b", ⟨1, 1⟩⟩, ⟨.identifier, "x", ⟨1, 2⟩⟩, ⟨.illegal, "\"", ⟨1, 3⟩⟩] := by
  decide +kernel

end Source

end Easel
