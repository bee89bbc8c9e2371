import Easel.Proofs.Parser.Steps

/-!
Which reader the first words of a phrase choose. The first word of a statement or of an
operand decides, save that `def` and an identifier ask for the word behind them.
-/

namespace Easel.Parser

open Grammar
open Token (Takes)

section Operands

variable {inner : Inner} {tokens middle rest : List Token} {precedence : Precedence}
  {tree : Expression}

theorem operand_parenthesis (opened : Takes tokens [.symbol "("] middle) :
    operand inner precedence tokens =
      (inner.expression .lowest >>= fun inside => expectSymbol ")" >>= fun _ => pure inside)
        middle := by
  obtain ⟨token, rfl, kind, lexeme⟩ := opened.single_fields
  simp only [operand, current?_bind, List.head?_cons, kind, lexeme, Word.symbol, skip_bind]

theorem operand_parenthesis_eq_ok_iff (opened : Takes tokens [.symbol "("] middle) :
    operand inner precedence tokens = .ok (tree, rest) ↔
      ∃ last, inner.expression .lowest middle = .ok (tree, last) ∧
        Takes last [.symbol ")"] rest := by
  rw [operand_parenthesis opened]
  simp only [bind_eq_ok_iff, pure_eq_ok_iff, expectSymbol_eq_ok_iff]
  grind

theorem operand_bracket (opened : Takes tokens [.symbol "["] middle) :
    operand inner precedence tokens =
      (expressionList inner "]" >>= fun items => pure (.list items)) middle := by
  obtain ⟨token, rfl, kind, lexeme⟩ := opened.single_fields
  simp only [operand, current?_bind, List.head?_cons, kind, lexeme, Word.symbol, skip_bind]

theorem operand_bracket_eq_ok_iff (opened : Takes tokens [.symbol "["] middle) :
    operand inner precedence tokens = .ok (tree, rest) ↔
      ∃ items, expressionList inner "]" middle = .ok (items, rest) ∧ tree = .list items := by
  rw [operand_bracket opened, bind_pure_eq_ok_iff]

theorem operand_def (begun : Takes tokens [.keyword "def"] middle) :
    operand inner precedence tokens =
      (definition inner >>= fun function => pure (.function function)) tokens := by
  obtain ⟨token, rfl, kind, lexeme⟩ := begun.single_fields
  simp only [operand, current?_bind, List.head?_cons, kind, lexeme, Word.keyword]

theorem operand_def_eq_ok_iff (begun : Takes tokens [.keyword "def"] middle) :
    operand inner precedence tokens = .ok (tree, rest) ↔
      ∃ function, definition inner tokens = .ok (function, rest) ∧ tree = .function function := by
  rw [operand_def begun, bind_pure_eq_ok_iff]

theorem operand_identifier {name : String} (named : Takes tokens [.identifier name] middle) :
    operand inner precedence tokens = afterIdentifier inner name precedence middle := by
  obtain ⟨token, rfl, kind, lexeme⟩ := named.single_fields
  simp only [operand, current?_bind, List.head?_cons, kind, lexeme, Word.identifier, skip_bind]

theorem operand_operator {operator : UnaryOperator} (before : operator.isAfterOperand = false)
    (taken : Takes tokens [.operator operator.spelling] middle) :
    operand inner precedence tokens =
      (inner.expression .unary >>= fun right => pure (.unary operator right)) middle := by
  obtain ⟨token, rfl, kind, lexeme⟩ := taken.single_fields
  simp only [operand, current?_bind, List.head?_cons, kind, lexeme, Word.operator, skip_bind,
    UnaryOperator.beforeOperand?_spelling operator before]

theorem operand_operator_eq_ok_iff {operator : UnaryOperator}
    (before : operator.isAfterOperand = false)
    (taken : Takes tokens [.operator operator.spelling] middle) :
    operand inner precedence tokens = .ok (tree, rest) ↔
      ∃ right, inner.expression .unary middle = .ok (right, rest) ∧
        tree = .unary operator right := by
  rw [operand_operator before taken, bind_pure_eq_ok_iff]

theorem operand_text_eq_ok_iff {lexeme : String} (taken : Takes tokens [⟨.text, lexeme⟩] middle) :
    operand inner precedence tokens = .ok (tree, rest) ↔
      tree = .literal (.text lexeme) ∧ rest = middle := by
  obtain ⟨token, rfl, kind, spelled⟩ := taken.single_fields
  simp only [operand, current?_bind, List.head?_cons, kind, spelled, skip_bind, pure_eq_ok_iff]

theorem numeral_eq_of_read {lexeme : String} {decimal : Decimal}
    (read : Decimal.read? lexeme.toList = some decimal) :
    decimal.toNumber false = numeral lexeme := by
  simp only [Decimal.read?, Option.ite_none_right_eq_some, Option.some.injEq] at read
  rw [← read.2]
  rfl

theorem operand_number_eq_ok_iff {lexeme : String}
    (taken : Takes tokens [⟨.number, lexeme⟩] middle) :
    operand inner precedence tokens = .ok (tree, rest) ↔
      (Decimal.read? lexeme.toList).isSome = true ∧
        tree = .literal (.number (numeral lexeme)) ∧ rest = middle := by
  obtain ⟨token, rfl, kind, spelled⟩ := taken.single_fields
  simp only [operand, current?_bind, List.head?_cons, kind, spelled, skip_bind]
  cases read : Decimal.read? lexeme.toList with
  | some decimal => simp [pure_eq_ok_iff, numeral_eq_of_read read]
  | none => simp [throw_eq_ok_iff]

/-- An operand begins with no other words. -/
theorem operand_of_not_begins {token : Token} (other : ¬BeginsOperand token.word) :
    operand inner precedence (token :: rest) = .error (.atToken token .expression) := by
  rw [operand, current?_bind, List.head?_cons]
  dsimp only
  generalize kindIs : token.kind = kind, lexemeIs : token.lexeme = lexeme
  split
  · exact absurd (.inl kindIs) other
  · exact absurd (.inr (.inl kindIs)) other
  · exact absurd (.inr (.inr (.inl kindIs))) other
  · cases found : UnaryOperator.beforeOperand? lexeme with
    | some operator =>
        obtain ⟨before, spelled⟩ := UnaryOperator.spelling_of_beforeOperand? found
        refine absurd (.inr (.inr (.inr (.inl ⟨operator, before, ?_⟩)))) other
        simp [Token.word, Word.operator, kindIs, lexemeIs, spelled]
    | none => rfl
  · exact absurd (by simp [BeginsOperand, Token.word, Word.symbol, kindIs, lexemeIs]) other
  · exact absurd (by simp [BeginsOperand, Token.word, Word.symbol, kindIs, lexemeIs]) other
  · exact absurd (by simp [BeginsOperand, Token.word, Word.keyword, kindIs, lexemeIs]) other
  · rfl

theorem afterIdentifier_call {name : String} (opened : Takes tokens [.symbol "("] middle) :
    afterIdentifier inner name precedence tokens =
      (expressionList inner ")" >>= fun arguments => pure (.call name arguments)) middle := by
  obtain ⟨token, rfl, spelled⟩ := Token.Takes.single_iff.mp opened
  simp only [afterIdentifier, current?_bind, List.head?_cons, Token.isSymbol_iff.mpr spelled,
    if_true, skip_bind]

theorem afterIdentifier_call_eq_ok_iff {name : String} (opened : Takes tokens [.symbol "("] middle) :
    afterIdentifier inner name precedence tokens = .ok (tree, rest) ↔
      ∃ arguments, expressionList inner ")" middle = .ok (arguments, rest) ∧
        tree = .call name arguments := by
  rw [afterIdentifier_call opened, bind_pure_eq_ok_iff]

theorem isSymbol_eq_false_of_kind {token : Token} {lexeme : String} (kind : token.kind = .operator) :
    token.isSymbol lexeme = false := by
  simp [Token.isSymbol, Token.isExactly, kind]

theorem afterIdentifier_assign {name : String} {operator : AssignOperator}
    (taken : Takes tokens [.operator operator.spelling] middle) :
    afterIdentifier inner name .lowest tokens =
      (inner.expression .lowest >>= fun value => pure (.assign operator name value)) middle := by
  obtain ⟨token, rfl, kind, lexeme⟩ := taken.single_fields
  replace kind : token.kind = .operator := kind
  simp only [afterIdentifier, current?_bind, List.head?_cons, isSymbol_eq_false_of_kind kind, kind,
    lexeme, Word.operator, AssignOperator.ofLexeme?_spelling, Bool.false_eq_true, if_false, if_true,
    skip_bind]

theorem afterIdentifier_assign_eq_ok_iff {name : String} {operator : AssignOperator}
    (taken : Takes tokens [.operator operator.spelling] middle) :
    afterIdentifier inner name .lowest tokens = .ok (tree, rest) ↔
      ∃ value, inner.expression .lowest middle = .ok (value, rest) ∧
        tree = .assign operator name value := by
  rw [afterIdentifier_assign taken, bind_pure_eq_ok_iff]

theorem ofLexeme?_of_afterOperand {operator : UnaryOperator} (after : operator.isAfterOperand = true) :
    AssignOperator.ofLexeme? operator.spelling = none := by
  cases operator with
  | postIncrement | postDecrement => rfl
  | _ => cases after

theorem afterIdentifier_increment_eq_ok_iff {name : String} {operator : UnaryOperator}
    (after : operator.isAfterOperand = true)
    (taken : Takes tokens [.operator operator.spelling] middle) :
    afterIdentifier inner name precedence tokens = .ok (tree, rest) ↔
      tree = .unary operator (.identifier name) ∧ rest = middle := by
  obtain ⟨token, rfl, kind, lexeme⟩ := taken.single_fields
  replace kind : token.kind = .operator := kind
  simp only [afterIdentifier, current?_bind, List.head?_cons, isSymbol_eq_false_of_kind kind, kind,
    lexeme, Word.operator, ofLexeme?_of_afterOperand after,
    UnaryOperator.afterOperand?_spelling operator after, Bool.false_eq_true, if_false, if_true,
    skip_bind, pure_eq_ok_iff]

/-- What makes more of an identifier than itself, where it stands behind an operator of the
given precedence. -/
def ExtendsIdentifier (precedence : Precedence) (word : Word) : Prop :=
  word = .symbol "(" ∨
    (∃ operator : AssignOperator, precedence = .lowest ∧ word = .operator operator.spelling) ∨
    ∃ operator : UnaryOperator, operator.isAfterOperand = true ∧ word = .operator operator.spelling

theorem afterIdentifier_alone {name : String}
    (alone : ∀ word, tokens.head?.map Token.word = some word → ¬ExtendsIdentifier precedence word) :
    afterIdentifier inner name precedence tokens = .ok (.identifier name, tokens) := by
  rw [afterIdentifier, current?_bind]
  cases tokens with
  | nil => rfl
  | cons token following =>
      have unextended := alone token.word rfl
      have uncalled : ¬token.isSymbol "(" = true := fun called =>
        unextended (.inl (Token.isSymbol_iff.mp called))
      simp only [List.head?_cons, if_neg uncalled]
      split
      · next kind =>
          have spelled : token.word = .operator token.lexeme := by
            simp [Token.word, Word.operator, kind]
          cases assigns : AssignOperator.ofLexeme? token.lexeme with
          | some operator =>
              rw [← AssignOperator.spelling_of_ofLexeme? assigns] at spelled
              have tight : ¬precedence = .lowest := fun lowest =>
                unextended (.inr (.inl ⟨operator, lowest, spelled⟩))
              simp only [if_neg tight]
              rfl
          | none =>
              cases increments : UnaryOperator.afterOperand? token.lexeme with
              | some operator =>
                  obtain ⟨after, written⟩ := UnaryOperator.spelling_of_afterOperand? increments
                  rw [← written] at spelled
                  exact absurd (.inr (.inr ⟨operator, after, spelled⟩)) unextended
              | none => rfl
      · rfl

end Operands

section Statements

variable {inner : Inner} {tokens middle rest : List Token} {tree : Statement}

theorem statement_of_takes {word : Word} (begun : Takes tokens [word] middle) :
    statement inner tokens = statementBegunBy inner word.kind word.lexeme tokens := by
  obtain ⟨token, rfl, kind, lexeme⟩ := begun.single_fields
  simp only [statement, current?_bind, List.head?_cons, kind, lexeme]

theorem statement_block_eq_ok_iff (opened : Takes tokens [.symbol "\x7b"] middle) :
    statement inner tokens = .ok (tree, rest) ↔
      ∃ trees, body inner tokens = .ok (trees, rest) ∧ tree = .block trees := by
  simp only [statement_of_takes opened, statementBegunBy, Word.symbol, bind_pure_eq_ok_iff]

theorem statement_empty_eq_ok_iff (taken : Takes tokens [.symbol ";"] middle) :
    statement inner tokens = .ok (tree, rest) ↔ tree = .empty ∧ rest = middle := by
  obtain ⟨token, rfl, -⟩ := Token.Takes.single_iff.mp taken
  simp only [statement_of_takes taken, statementBegunBy, Word.symbol, skip_bind, pure_eq_ok_iff]

theorem statement_ret_eq_ok_iff (begun : Takes tokens [.keyword "ret"] middle) :
    statement inner tokens = .ok (tree, rest) ↔
      ∃ value last, inner.expression .lowest middle = .ok (value, last) ∧
        Takes last [.symbol ";"] rest ∧ tree = .ret value := by
  obtain ⟨token, rfl, -⟩ := Token.Takes.single_iff.mp begun
  simp only [statement_of_takes begun, statementBegunBy, Word.keyword, skip_bind, bind_eq_ok_iff,
    pure_eq_ok_iff, expectSymbol_eq_ok_iff]
  grind

/-- The tokens begin with the two words that only the definition of a named function
begins with. -/
def DefinesName (tokens : List Token) : Prop :=
  ∃ name following, Takes tokens [.keyword "def", .identifier name] following

theorem definesName_iff (begun : Takes tokens [.keyword "def"] middle) :
    tokens[1]?.any Token.isIdentifier = true ↔ DefinesName tokens := by
  obtain ⟨token, rfl, spelled⟩ := Token.Takes.single_iff.mp begun
  have second : (token :: middle)[1]? = middle.head? := by
    cases middle <;> rfl
  rw [second, any_isIdentifier_iff]
  constructor
  · intro named
    obtain ⟨name, following, taken⟩ := named
    exact ⟨name, following, begun.cons taken⟩
  · intro defined
    obtain ⟨name, following, taken⟩ := defined
    obtain ⟨_, _, same, -, named⟩ := taken.uncons
    cases same
    exact ⟨name, following, named⟩

theorem DefinesName.of_second (named : DefinesName tokens) (sameHead : middle.head? = tokens.head?)
    (sameSecond : middle[1]? = tokens[1]?) : DefinesName middle := by
  obtain ⟨name, following, taken⟩ := id named
  obtain ⟨rest, begun, -⟩ := taken.split_first
  have head := sameHead ▸ begun.headWord?
  obtain ⟨_, begunToo⟩ := Token.Takes.of_headWord? head
  rw [← definesName_iff begunToo, sameSecond, definesName_iff begun]
  exact named

theorem statement_definition (named : DefinesName tokens) :
    statement inner tokens =
      (definition inner >>= fun function => pure (.definition function)) tokens := by
  obtain ⟨name, following, taken⟩ := id named
  obtain ⟨middle, begun, -⟩ := taken.split_first
  simp only [statement_of_takes begun, statementBegunBy, Word.keyword, following?_bind,
    (definesName_iff begun).mpr named, if_true]

theorem statement_definition_eq_ok_iff (named : DefinesName tokens) :
    statement inner tokens = .ok (tree, rest) ↔
      ∃ function, definition inner tokens = .ok (function, rest) ∧
        tree = .definition function := by
  rw [statement_definition named, bind_pure_eq_ok_iff]

theorem statementBegunBy_of_other {word : Word} (other : word ∉ statementWords)
    (undefined : word ≠ .keyword "def") :
    statementBegunBy inner word.kind word.lexeme = expressionStatement inner := by
  obtain ⟨kind, lexeme⟩ := word
  unfold statementBegunBy
  dsimp only
  split <;> first | rfl | simp [statementWords, Word.symbol, Word.keyword] at other undefined

theorem statement_expression {word : Word} (begun : Takes tokens [word] middle)
    (other : word ∉ statementWords) (unnamed : ¬DefinesName tokens) :
    statement inner tokens = expressionStatement inner tokens := by
  rw [statement_of_takes begun]
  by_cases literal : word = .keyword "def"
  · subst literal
    simp only [statementBegunBy, Word.keyword, following?_bind]
    rw [if_neg (mt (definesName_iff begun).mp unnamed)]
  · rw [statementBegunBy_of_other other literal]

end Statements

end Easel.Parser
