import Easel.Proofs.Parser.Soundness

/-!
Every phrase of the grammar is read, and read as its tree. A phrase that stands in a text is
only read to its own end if what follows cannot be taken for more of it, so each statement
here says what may follow. An expression may be followed by a closing symbol or by an operator
that binds no more tightly than the one in front, and a statement by anything but a further
branch. The first words of phrases show that inside a phrase this is always so.
-/

namespace Easel.Parser

open Grammar
open Token (Takes)

variable {Tree : Type} {inner : Inner} {phrases : Phrases} {tokens middle rest : List Token}
  {words : List Word}

/-- No more of an expression behind an operator of the given precedence. -/
structure Ends (precedence : Precedence) (rest : List Token) : Prop where
  stopped : ¬GoesOn precedence rest
  alone : ∀ word, rest.head?.map Token.word = some word → ¬ExtendsIdentifier .lowest word

def Unbranched (rest : List Token) : Prop :=
  ∀ word, rest.head?.map Token.word = some word → word ≠ .keyword "elif" ∧ word ≠ .keyword "else"

/-- A reader takes every phrase of its kind, where the rest may follow it. -/
def Accepts (rounds : Nat) (reader : Parser Tree) (phrase : List Word → Tree → Prop)
    (mayFollow : List Token → Prop) : Prop :=
  ∀ {tokens words rest tree}, Legible rounds tokens → Takes tokens words rest → phrase words tree →
    mayFollow rest → reader tokens = .ok (tree, rest)

structure Complete (inner : Inner) (phrases : Phrases) : Prop where
  statement : Accepts inner.rounds inner.statement phrases.statement Unbranched
  expression : ∀ precedence, Accepts inner.rounds (inner.expression precedence)
    (operandPhrase phrases precedence) (Ends precedence)
  beginsStatement : ∀ {words tree}, phrases.statement words tree →
    ∃ word others, words = word :: others ∧ BeginsStatement word
  beginsExpression : ∀ {words tree}, phrases.expression words tree →
    ∃ word others, words = word :: others ∧ BeginsOperand word
  notItem : ∀ {words tree}, phrases.expression words tree → ¬BeginsItem words

theorem ExtendsIdentifier.at_lowest {precedence : Precedence} {word : Word}
    (extended : ExtendsIdentifier precedence word) : ExtendsIdentifier .lowest word := by
  rcases extended with called | ⟨operator, -, spelled⟩ | incremented
  · exact .inl called
  · exact .inr (.inl ⟨operator, rfl, spelled⟩)
  · exact .inr (.inr incremented)

theorem GoesOn.looser {precedence looser : Precedence} (goesOn : GoesOn precedence tokens)
    (below : looser.rank ≤ precedence.rank) : GoesOn looser tokens := by
  obtain ⟨level, found, tighter⟩ := goesOn
  exact ⟨level, found, Nat.lt_of_le_of_lt below tighter⟩

theorem Ends.tighten {precedence tighter : Precedence} (ends : Ends precedence rest)
    (above : precedence.rank ≤ tighter.rank) : Ends tighter rest :=
  ⟨fun goesOn => ends.stopped (goesOn.looser above), ends.alone⟩

theorem not_extendsIdentifier_symbol {lexeme : String} (closed : lexeme ≠ "(") :
    ¬ExtendsIdentifier .lowest (.symbol lexeme) := by
  intro extended
  rcases extended with called | ⟨operator, -, spelled⟩ | ⟨operator, -, spelled⟩
  · exact closed (congrArg Word.lexeme called)
  · cases congrArg Word.kind spelled
  · cases congrArg Word.kind spelled

theorem Ends.of_symbol {lexeme : String} (precedence : Precedence)
    (taken : Takes tokens [.symbol lexeme] rest) (closed : lexeme ≠ "(" ∧ lexeme ≠ "[") :
    Ends precedence tokens := by
  have head := taken.headWord?
  refine ⟨?_, ?_⟩
  · intro goesOn
    obtain ⟨level, found, -⟩ := goesOn
    rcases operatorPrecedence?_eq_some_iff.mp found with ⟨bracket, -⟩ | ⟨operator, -, spelled, -⟩
    · rw [head] at bracket
      have same := Option.some.inj bracket
      exact closed.2 (congrArg Word.lexeme same)
    · rw [head] at spelled
      have same := Option.some.inj spelled
      cases congrArg Word.kind same
  · intro word found
    rw [head] at found
    cases found
    exact not_extendsIdentifier_symbol closed.1

theorem not_extendsIdentifier_operator (operator : BinaryOperator) :
    ¬ExtendsIdentifier .lowest (.operator operator.spelling) := by
  intro extended
  rcases extended with called | ⟨assigning, -, spelled⟩ | ⟨incrementing, after, spelled⟩
  · cases congrArg Word.kind called
  · have same : operator.spelling = assigning.spelling := congrArg Word.lexeme spelled
    revert same
    cases operator <;> cases assigning <;> decide
  · have same : operator.spelling = incrementing.spelling := congrArg Word.lexeme spelled
    revert same after
    cases operator <;> cases incrementing <;> decide

/-- Behind a complete left operand, the operator itself does not extend the operand. -/
theorem Ends.of_operator {level : Precedence} (found : operatorPrecedence? tokens.head? = some level) :
    Ends level tokens := by
  refine ⟨?_, ?_⟩
  · intro goesOn
    obtain ⟨next, again, tighter⟩ := goesOn
    rw [found] at again
    cases again
    exact Nat.lt_irrefl _ tighter
  · intro word head
    rcases operatorPrecedence?_eq_some_iff.mp found with ⟨bracket, -⟩ | ⟨operator, -, spelled, -⟩
    · rw [head] at bracket
      cases bracket
      exact not_extendsIdentifier_symbol (by decide)
    · rw [head] at spelled
      cases spelled
      exact not_extendsIdentifier_operator operator

section Lists

/-- Every round takes a separator, so the tokens are enough rounds. -/
theorem itemsUntil_complete {item : Parser Tree} {phrase : List Word → Tree → Prop}
    {mayFollow : List Token → Prop} {limit rounds : Nat} {closing : String}
    {found trees : List Tree} (accepts : Accepts limit item phrase mayFollow)
    (apart : closing ≠ ",")
    (ended : ∀ {tokens rest}, Takes tokens [.symbol closing] rest → mayFollow tokens)
    (separated : ∀ {tokens rest}, Takes tokens [.symbol ","] rest → mayFollow tokens)
    (items : Separated phrase words trees) (legible : Legible limit tokens)
    (short : tokens.length ≤ rounds) (taken : Takes tokens (words ++ [.symbol closing]) rest) :
    itemsUntil item closing rounds found tokens = .ok (found.reverse ++ trees, rest) := by
  induction items generalizing rounds found tokens with
  | last only =>
      have shorter := taken.length_lt (by simp)
      obtain ⟨middle, first, closed⟩ := taken.split
      cases rounds with
      | zero => omega
      | succ rounds =>
          rw [itemsUntil_succ_eq_ok_iff apart]
          have read := accepts legible first only (ended closed)
          exact ⟨_, middle, read, .inl ⟨closed, by simp⟩⟩
  | cons head tail induction =>
      rw [List.append_assoc] at taken
      obtain ⟨middle, first, taken⟩ := taken.split
      obtain ⟨following, comma, others⟩ := taken.split_first
      have total := first.length
      have shorter := comma.length_lt (List.cons_ne_nil _ _)
      cases rounds with
      | zero => omega
      | succ rounds =>
          rw [itemsUntil_succ_eq_ok_iff apart]
          have read := accepts legible first head (separated comma)
          refine ⟨_, middle, read, .inr ⟨following, comma, ?_⟩⟩
          have legibleFollowing := (legible.of_takes first).of_takes comma
          have fewer : following.length ≤ rounds := by omega
          rw [induction legibleFollowing fewer others]
          simp

theorem listUntil_complete {item : Parser Tree} {phrase : List Word → Tree → Prop}
    {mayFollow : List Token → Prop} {limit : Nat} {opening closing : String}
    {trees : List Tree} (accepts : Accepts limit item phrase mayFollow) (apart : closing ≠ ",")
    (ended : ∀ {tokens rest}, Takes tokens [.symbol closing] rest → mayFollow tokens)
    (separated : ∀ {tokens rest}, Takes tokens [.symbol ","] rest → mayFollow tokens)
    (begins : ∀ {words tree}, phrase words tree →
      ∃ word others, words = word :: others ∧ word ≠ .symbol closing)
    (listed : Listed phrase opening closing (.symbol opening :: words) trees)
    (legible : Legible limit tokens) (taken : Takes tokens words rest) :
    listUntil item closing limit tokens = .ok (trees, rest) := by
  rw [listUntil_eq_ok_iff]
  generalize whole : Word.symbol opening :: words = all at listed
  cases listed with
  | empty =>
      cases whole
      exact .inl ⟨taken, rfl⟩
  | @items itemWords _ items =>
      have same : words = itemWords ++ [.symbol closing] := by simpa using whole
      subst same
      refine .inr ⟨?_, ?_⟩
      · obtain ⟨word, others, begun, different⟩ : ∃ word others,
            itemWords = word :: others ∧ word ≠ .symbol closing := by
          cases items with
          | last only => exact begins only
          | cons head tail =>
              obtain ⟨word, others, rfl, different⟩ := begins head
              exact ⟨word, _, rfl, different⟩
        subst begun
        rw [Token.Takes.headWord? taken]
        intro closes
        exact different (Option.some.inj closes)
      · exact itemsUntil_complete accepts apart ended separated items legible legible.short taken

theorem expressionList_complete (complete : Complete inner phrases) {opening closing : String}
    {trees : List Expression} (apart : closing ≠ ",") (closed : closing ≠ "(" ∧ closing ≠ "[")
    (listed : Listed phrases.expression opening closing (.symbol opening :: words) trees)
    (legible : Legible inner.rounds tokens) (taken : Takes tokens words rest) :
    expressionList inner closing tokens = .ok (trees, rest) := by
  refine listUntil_complete (complete.expression .lowest) apart ?_ ?_ ?_ listed legible taken
  · intro tokens rest last
    exact .of_symbol .lowest last closed
  · intro tokens rest comma
    exact .of_symbol .lowest comma (by decide)
  · intro words tree expression
    obtain ⟨word, others, same, begins⟩ := complete.beginsExpression expression
    exact ⟨word, others, same, begins.ne_symbol closed⟩

theorem expectIdentifier_accepts (rounds : Nat) :
    Accepts rounds expectIdentifier IsParameter (fun _ => True) := by
  intro tokens words rest name _ taken parameter _
  cases parameter
  exact expectIdentifier_eq_ok_iff.mpr taken

theorem parameters_complete {names : List String} (listed : Listed IsParameter "(" ")" words names)
    (legible : Legible inner.rounds tokens) (taken : Takes tokens words rest) :
    parameters inner tokens = .ok (names, rest) := by
  rw [parameters_eq_ok_iff]
  obtain ⟨others, rfl⟩ := listed.begins
  obtain ⟨middle, opened, inside⟩ := taken.split_first
  refine ⟨middle, opened, ?_⟩
  refine listUntil_complete (expectIdentifier_accepts inner.rounds) (by decide) (fun _ => trivial)
    (fun _ => trivial) ?_ listed (legible.of_takes opened) inside
  intro words name parameter
  cases parameter
  exact ⟨_, [], rfl, by simp [Word.identifier, Word.symbol]⟩

end Lists

section Bodies

/-- Statements may stand behind a statement, and so may a brace. -/
theorem unbranched_of_sequence (complete : Complete inner phrases) {trees : List Statement}
    (statements : Sequence phrases.statement words trees)
    (taken : Takes tokens words middle) (after : Unbranched middle) : Unbranched tokens := by
  cases statements with
  | nil =>
      obtain ⟨all, rfl, nothing⟩ := taken
      rw [List.map_eq_nil_iff.mp nothing]
      exact after
  | cons head tail =>
      obtain ⟨word, others, rfl, begins⟩ := complete.beginsStatement head
      intro first found
      rw [Token.Takes.headWord? taken] at found
      cases found
      exact begins.unbranched

theorem unbranched_of_symbol {lexeme : String} (taken : Takes tokens [.symbol lexeme] rest) :
    Unbranched tokens := by
  intro word found
  rw [taken.headWord?] at found
  cases found
  simp [Word.symbol, Word.keyword]

theorem statementsUntilBrace_complete (complete : Complete inner phrases) {rounds : Nat}
    {found trees : List Statement} (statements : Sequence phrases.statement words trees)
    (legible : Legible inner.rounds tokens) (short : tokens.length ≤ rounds)
    (taken : Takes tokens (words ++ [.symbol "\x7d"]) rest) :
    statementsUntilBrace inner rounds found tokens = .ok (found.reverse ++ trees, rest) := by
  induction statements generalizing rounds found tokens with
  | nil =>
      have shorter := taken.length_lt (List.cons_ne_nil _ _)
      cases rounds with
      | zero => omega
      | succ rounds =>
          rw [statementsUntilBrace_succ_eq_ok_iff]
          exact .inl ⟨taken, by simp⟩
  | cons head tail induction =>
      rw [List.append_assoc] at taken
      obtain ⟨middle, first, others⟩ := taken.split
      obtain ⟨word, following, rfl, begins⟩ := complete.beginsStatement head
      have shorter := first.length_lt (List.cons_ne_nil _ _)
      cases rounds with
      | zero => omega
      | succ rounds =>
          obtain ⟨last, before, closed⟩ := others.split
          have after := unbranched_of_sequence complete tail before (unbranched_of_symbol closed)
          have read := complete.statement legible first head after
          have fewer : middle.length ≤ rounds := by omega
          rw [statementsUntilBrace_succ_eq_ok_iff, Token.Takes.headWord? first]
          refine .inr ⟨?_, ?_, _, middle, read, ?_⟩
          · intro none
            rw [none, List.length_nil] at shorter
            omega
          · intro closes
            exact begins.ne_brace (Option.some.inj closes)
          · rw [induction (legible.of_takes first) fewer others]
            simp

theorem body_complete (complete : Complete inner phrases) {trees : List Statement}
    (braced : IsBody phrases words trees) (legible : Legible inner.rounds tokens)
    (taken : Takes tokens words rest) : body inner tokens = .ok (trees, rest) := by
  cases braced with
  | braced statements =>
      obtain ⟨middle, opened, others⟩ := taken.split_first
      have legibleMiddle := legible.of_takes opened
      rw [body_eq_ok_iff]
      exact ⟨middle, opened,
        statementsUntilBrace_complete complete statements legibleMiddle legibleMiddle.short others⟩

theorem condition_complete (complete : Complete inner phrases) {tree : Expression}
    (condition : IsCondition phrases words tree) (legible : Legible inner.rounds tokens)
    (taken : Takes tokens words rest) : Parser.condition inner tokens = .ok (tree, rest) := by
  cases condition with
  | parenthesised inside =>
      obtain ⟨first, opened, others⟩ := taken.split_first
      obtain ⟨second, before, closed⟩ := others.split
      have ends := Ends.of_symbol .lowest closed (by decide)
      rw [condition_eq_ok_iff]
      exact ⟨first, second, opened,
        complete.expression .lowest (legible.of_takes opened) before inside ends, closed⟩

theorem definition_complete (complete : Complete inner phrases) {tree : Definition}
    (defined : IsFunction phrases words tree) (legible : Legible inner.rounds tokens)
    (taken : Takes tokens words rest) : definition inner tokens = .ok (tree, rest) := by
  cases defined with
  | named name listed braced =>
      obtain ⟨token, following, rfl, -, taken⟩ := taken.uncons
      obtain ⟨first, named, taken⟩ := taken.split_first
      obtain ⟨second, before, after⟩ := taken.split
      have legibleFirst := (legible.of_takes (Token.Takes.single token following)).of_takes named
      rw [definition_cons_eq_ok_iff]
      exact ⟨first, second, some name, _, _, .inl ⟨name, rfl, named⟩,
        parameters_complete listed legibleFirst before,
        body_complete complete braced (legibleFirst.of_takes before) after, rfl⟩
  | unnamed listed braced =>
      obtain ⟨token, following, rfl, -, taken⟩ := taken.uncons
      obtain ⟨second, before, after⟩ := taken.split
      have legibleFirst := legible.of_takes (Token.Takes.single token following)
      rw [definition_cons_eq_ok_iff]
      refine ⟨following, second, none, _, _, .inr ⟨rfl, ?_, rfl⟩,
        parameters_complete listed legibleFirst before,
        body_complete complete braced (legibleFirst.of_takes before) after, rfl⟩
      intro named
      obtain ⟨name, last, named⟩ := named
      obtain ⟨others, rfl⟩ := listed.begins
      have same := before.headWord?.symm.trans named.headWord?
      simp [Word.symbol, Word.identifier] at same

end Bodies

section Operands

theorem operand_number_complete {precedence : Precedence} {lexeme : String}
    (legible : Legible inner.rounds tokens) (taken : Takes tokens [⟨.number, lexeme⟩] rest) :
    operand inner precedence tokens = .ok (.literal (.number (numeral lexeme)), rest) := by
  rw [operand_number_eq_ok_iff taken]
  obtain ⟨token, rfl, kind, spelled⟩ := taken.single_fields
  have shape := (legible.lexed token List.mem_cons_self).hasShape
  rw [kind, spelled] at shape
  exact ⟨Decimal.read?_of_isNumeral shape, rfl, rfl⟩

theorem operand_primary_complete (complete : Complete inner phrases) (precedence : Precedence)
    {tree : Expression} (primary : IsPrimary phrases words tree)
    (legible : Legible inner.rounds tokens) (taken : Takes tokens words rest)
    (ends : Ends .unary rest) : operand inner precedence tokens = .ok (tree, rest) := by
  cases primary with
  | parenthesised inside =>
      obtain ⟨middle, opened, others⟩ := taken.split_first
      obtain ⟨last, before, closed⟩ := others.split
      rw [operand_parenthesis_eq_ok_iff opened]
      have read := complete.expression .lowest (legible.of_takes opened) before inside
        (.of_symbol .lowest closed (by decide))
      exact ⟨last, read, closed⟩
  | number lexeme => exact operand_number_complete legible taken
  | text lexeme => exact (operand_text_eq_ok_iff taken).mpr ⟨rfl, rfl⟩
  | identifier name =>
      rw [operand_identifier taken]
      apply afterIdentifier_alone
      intro word head extended
      exact ends.alone word head extended.at_lowest
  | call name listed =>
      obtain ⟨middle, named, others⟩ := taken.split_first
      obtain ⟨inside, rfl⟩ := listed.begins
      obtain ⟨following, opened, taken⟩ := others.split_first
      have legibleFollowing := (legible.of_takes named).of_takes opened
      rw [operand_identifier named, afterIdentifier_call_eq_ok_iff opened]
      exact ⟨_, expressionList_complete complete (by decide) (by decide) listed legibleFollowing taken,
        rfl⟩
  | increment name after =>
      obtain ⟨middle, named, others⟩ := taken.split_first
      rw [operand_identifier named, afterIdentifier_increment_eq_ok_iff after others]
      exact ⟨rfl, rfl⟩
  | list listed =>
      obtain ⟨inside, rfl⟩ := listed.begins
      obtain ⟨middle, opened, taken⟩ := taken.split_first
      rw [operand_bracket_eq_ok_iff opened]
      exact ⟨_, expressionList_complete complete (by decide) (by decide) listed
        (legible.of_takes opened) taken, rfl⟩
  | function defined =>
      obtain ⟨others, rfl⟩ := defined.begins
      obtain ⟨middle, begun, -⟩ := taken.split_first
      rw [operand_def_eq_ok_iff begun]
      exact ⟨_, definition_complete complete defined legible taken, rfl⟩

theorem applications_step {precedence level : Precedence} {rounds : Nat} {left tree : Expression}
    (found : operatorPrecedence? tokens.head? = some level) (tighter : precedence.rank < level.rank)
    (short : tokens.length ≤ rounds) (applied : application inner left tokens = .ok (tree, rest))
    (shorter : rest.length < tokens.length) :
    ∃ fewer, rest.length ≤ fewer ∧
      applications inner precedence rounds left tokens =
        applications inner precedence fewer tree rest := by
  cases rounds with
  | zero => omega
  | succ rounds =>
      refine ⟨rounds, by omega, ?_⟩
      rw [applications_of_goesOn ⟨level, found, tighter⟩, bind_apply, applied]

/-- Reading a term and what may follow it comes to the same as having read the term and going
on with the operators that follow. The induction is on the term, whose left operand is
followed by an operator of its own level. -/
theorem term_complete (complete : Complete inner phrases) {precedence level : Precedence}
    {rounds : Nat} {tree : Expression} (term : IsTerm phrases level words tree)
    (above : precedence.rank < level.rank ∨ level = .unary)
    (legible : Legible inner.rounds tokens) (short : tokens.length ≤ rounds)
    (taken : Takes tokens words rest) (ends : Ends level rest) :
    ∃ fewer, rest.length ≤ fewer ∧
      (operand inner precedence >>= applications inner precedence rounds) tokens =
        applications inner precedence fewer tree rest := by
  induction term generalizing rest with
  | primary operand =>
      have read := operand_primary_complete complete precedence operand legible taken ends
      have total := taken.length
      refine ⟨rounds, by omega, ?_⟩
      rw [bind_apply, read]
  | unary before operand =>
      obtain ⟨middle, sign, others⟩ := taken.split_first
      have read := complete.expression .unary (legible.of_takes sign) others operand ends
      have total := taken.length
      refine ⟨rounds, by omega, ?_⟩
      rw [bind_apply, (operand_operator_eq_ok_iff before sign).mpr ⟨_, read, rfl⟩]
  | @index _ _ left right container inside induction =>
      rw [List.append_assoc, List.cons_append] at taken
      obtain ⟨middle, first, taken⟩ := taken.split
      obtain ⟨following, opened, others⟩ := taken.split_first
      obtain ⟨last, before, closed⟩ := others.split
      have found : operatorPrecedence? middle.head? = some .index :=
        operatorPrecedence?_eq_some_iff.mpr (.inl ⟨opened.headWord?, rfl⟩)
      obtain ⟨fewer, enough, same⟩ := induction above first (.of_operator found)
      have legibleFollowing := (legible.of_takes first).of_takes opened
      have read := complete.expression .lowest legibleFollowing before inside
        (.of_symbol .lowest closed (by decide))
      have applied : application inner left middle = .ok (.binary .index left right, rest) :=
        (application_bracket_eq_ok_iff opened).mpr ⟨last, right, read, closed, rfl⟩
      have shorter : rest.length < middle.length := taken.length_lt (List.cons_ne_nil _ _)
      have tighter := above.resolve_right (by decide)
      obtain ⟨rest', enough', later⟩ := applications_step found tighter enough applied shorter
      exact ⟨rest', enough', same.trans later⟩
  | @binary operator _ _ left right written first second induction =>
      obtain ⟨middle, firstTaken, taken⟩ := taken.split
      obtain ⟨following, sign, others⟩ := taken.split_first
      have found : operatorPrecedence? middle.head? = some operator.precedence :=
        operatorPrecedence?_eq_some_iff.mpr (.inr ⟨operator, written, sign.headWord?, rfl⟩)
      obtain ⟨fewer, enough, same⟩ := induction above firstTaken (.of_operator found)
      have legibleFollowing := (legible.of_takes firstTaken).of_takes sign
      rw [← operandPhrase_of_ne_lowest phrases operator.precedence_ne_lowest] at second
      have read := complete.expression operator.precedence legibleFollowing others second ends
      have applied : application inner left middle = .ok (.binary operator left right, rest) :=
        (application_operator_eq_ok_iff written sign).mpr ⟨right, read, rfl⟩
      have shorter : rest.length < middle.length := taken.length_lt (List.cons_ne_nil _ _)
      have tighter : precedence.rank < operator.precedence.rank := by
        rcases above with tighter | unary
        · exact tighter
        · have bound := operator.rank_precedence_le_index
          rw [unary] at bound
          exact absurd bound (by decide)
      obtain ⟨rest', enough', later⟩ := applications_step found tighter enough applied shorter
      exact ⟨rest', enough', same.trans later⟩
  | @tighter level _ _ binary term induction =>
      have next := Precedence.rank_tighter binary.2
      have tighter := above.resolve_right binary.2
      exact induction (.inl (by omega)) taken (ends.tighten (by omega))

theorem expression_complete (complete : Complete inner phrases) (precedence : Precedence) :
    Accepts inner.rounds (expression inner precedence)
      (operandPhrase ⟨IsStatement phrases, IsExpression phrases, IsTerm phrases⟩ precedence)
      (Ends precedence) := by
  intro tokens words rest tree legible taken phrase ends
  have readTerm : IsTerm phrases precedence.tighter words tree →
      expression inner precedence tokens = .ok (tree, rest) := by
    intro term
    have endsTerm := ends.tighten precedence.rank_le_tighter
    obtain ⟨fewer, -, same⟩ := term_complete complete term precedence.rank_lt_tighter_or legible
      legible.short taken endsTerm
    exact same.trans (applications_of_not_goesOn ends.stopped fewer)
  by_cases lowest : precedence = .lowest
  · subst lowest
    cases phrase with
    | assign operator name assigned =>
        obtain ⟨middle, named, others⟩ := taken.split_first
        obtain ⟨following, sign, others⟩ := others.split_first
        have legibleFollowing := (legible.of_takes named).of_takes sign
        have read := complete.expression .lowest legibleFollowing others assigned ends
        rw [expression, bind_apply, operand_identifier named,
          (afterIdentifier_assign_eq_ok_iff sign).mpr ⟨_, read, rfl⟩]
        exact applications_of_not_goesOn ends.stopped inner.rounds
    | term loosest => exact readTerm loosest
  · rw [operandPhrase_of_ne_lowest _ lowest] at phrase
    exact readTerm phrase

end Operands

section Statements

theorem alternatives_complete (complete : Complete inner phrases) {rounds : Nat}
    {tree : Alternatives} (others : IsAlternatives phrases words tree)
    (legible : Legible inner.rounds tokens) (short : tokens.length ≤ rounds)
    (taken : Takes tokens words rest) (after : Unbranched rest) :
    alternatives inner rounds tokens = .ok (tree, rest) := by
  induction others generalizing tokens rounds with
  | none =>
      obtain ⟨all, rfl, nothing⟩ := taken
      rw [List.map_eq_nil_iff.mp nothing, List.nil_append]
      cases rounds with
      | zero => rfl
      | succ rounds =>
          rw [alternatives_succ_eq_ok_iff]
          refine .inr (.inr ⟨?_, ?_, rfl, rfl⟩)
          · intro found
            exact (after _ found).1 rfl
          · intro found
            exact (after _ found).2 rfl
  | otherwise braced =>
      obtain ⟨start, begun, inside⟩ := taken.split_first
      have shorter := begun.length_lt (List.cons_ne_nil _ _)
      cases rounds with
      | zero => omega
      | succ rounds =>
          rw [alternatives_succ_eq_ok_iff]
          exact .inr (.inl ⟨start, _, begun,
            body_complete complete braced (legible.of_takes begun) inside, rfl⟩)
  | branch tested braced _ induction =>
      rw [List.cons_append, List.cons_append, List.append_assoc] at taken
      obtain ⟨start, begun, taken⟩ := taken.split_first
      obtain ⟨first, test, taken⟩ := taken.split
      obtain ⟨second, body, taken⟩ := taken.split
      have legibleStart := legible.of_takes begun
      have legibleFirst := legibleStart.of_takes test
      have shorter := begun.length_lt (List.cons_ne_nil _ _)
      have testTotal := test.length
      have bodyTotal := body.length
      cases rounds with
      | zero => omega
      | succ rounds =>
          rw [alternatives_succ_eq_ok_iff]
          exact .inl ⟨start, first, second, _, _, _, begun,
            condition_complete complete tested legibleStart test,
            body_complete complete braced legibleFirst body,
            induction (legibleFirst.of_takes body) (by omega) taken, rfl⟩

theorem foreachLoop_complete (complete : Complete inner phrases) {items : Expression}
    {insideWords bodyWords : List Word} {round : List Statement} (item : String)
    (inside : phrases.expression insideWords items) (braced : IsBody phrases bodyWords round)
    (legible : Legible inner.rounds tokens)
    (taken : Takes tokens
      (.identifier item :: .symbol ":" :: (insideWords ++ .symbol ")" :: bodyWords)) rest) :
    foreachLoop inner tokens = .ok (.foreachLoop item items round, rest) := by
  obtain ⟨first, named, taken⟩ := taken.split_first
  obtain ⟨second, colon, taken⟩ := taken.split_first
  obtain ⟨third, before, taken⟩ := taken.split
  obtain ⟨fourth, closed, body⟩ := taken.split_first
  have legibleSecond := (legible.of_takes named).of_takes colon
  have legibleFourth := (legibleSecond.of_takes before).of_takes closed
  have read := complete.expression .lowest legibleSecond before inside
    (.of_symbol .lowest closed (by decide))
  rw [foreachLoop_eq_ok_iff]
  exact ⟨first, second, third, fourth, item, items, round, named, colon, read, closed,
    body_complete complete braced legibleFourth body, rfl⟩

theorem countingLoop_complete (complete : Complete inner phrases)
    {startWords testWords stepWords bodyWords : List Word} {start test step : Expression}
    {round : List Statement} (first : phrases.expression startWords start)
    (second : phrases.expression testWords test) (third : phrases.expression stepWords step)
    (braced : IsBody phrases bodyWords round) (legible : Legible inner.rounds tokens)
    (taken : Takes tokens (startWords ++ .symbol "," :: (testWords ++ .symbol "," ::
      (stepWords ++ .symbol ")" :: bodyWords))) rest) :
    countingLoop inner tokens = .ok (.forLoop start test step round, rest) := by
  obtain ⟨one, takenStart, taken⟩ := taken.split
  obtain ⟨two, comma, taken⟩ := taken.split_first
  obtain ⟨three, takenTest, taken⟩ := taken.split
  obtain ⟨four, secondComma, taken⟩ := taken.split_first
  obtain ⟨five, takenStep, taken⟩ := taken.split
  obtain ⟨six, closed, body⟩ := taken.split_first
  have legibleTwo := (legible.of_takes takenStart).of_takes comma
  have legibleFour := (legibleTwo.of_takes takenTest).of_takes secondComma
  have legibleSix := (legibleFour.of_takes takenStep).of_takes closed
  have readStart := complete.expression .lowest legible takenStart first
    (.of_symbol .lowest comma (by decide))
  have readTest := complete.expression .lowest legibleTwo takenTest second
    (.of_symbol .lowest secondComma (by decide))
  have readStep := complete.expression .lowest legibleFour takenStep third
    (.of_symbol .lowest closed (by decide))
  rw [countingLoop_eq_ok_iff]
  exact ⟨one, two, three, four, five, six, start, test, step, round, readStart, comma, readTest,
    secondComma, readStep, closed, body_complete complete braced legibleSix body, rfl⟩

theorem RunsOverItems.beginsItem (running : RunsOverItems tokens) : BeginsItem (tokens.map Token.word) := by
  obtain ⟨item, following, first⟩ := running
  exact ⟨item, following.map Token.word, first.map_word⟩

/-- A colon stands behind no identifier in an expression, nor behind the expression here, so
the loop does not run over items. -/
theorem not_runsOverItems (complete : Complete inner phrases) {tree : Expression}
    {others : List Word} (expression : phrases.expression words tree)
    (taken : Takes tokens (words ++ .symbol "," :: others) rest) : ¬RunsOverItems tokens := by
  intro running
  have begins := running.beginsItem
  rw [taken.map_word, List.append_assoc, List.cons_append] at begins
  obtain ⟨word, following, rfl, -⟩ := complete.beginsExpression expression
  exact complete.notItem expression (begins.of_append (by simp) (by simp [Word.symbol]))

theorem forLoop_complete {bodyTree : Statement} (begun : Takes tokens [.keyword "for"] middle)
    {first : List Token} (opened : Takes middle [.symbol "("] first)
    (chosen : RunsOverItems first ∧ foreachLoop inner first = .ok (bodyTree, rest) ∨
      ¬RunsOverItems first ∧ countingLoop inner first = .ok (bodyTree, rest)) :
    statement inner tokens = .ok (bodyTree, rest) := by
  rw [statement_of_takes begun]
  obtain ⟨token, rfl, -⟩ := Token.Takes.single_iff.mp begun
  exact forLoop_cons_eq_ok_iff.mpr ⟨first, opened, chosen⟩

theorem signal_complete {keyword : String} {command : Statement}
    (same : statementBegunBy inner .keyword keyword = signal command)
    (taken : Takes tokens [.keyword keyword, .symbol ";"] rest) :
    statement inner tokens = .ok (command, rest) := by
  obtain ⟨middle, begun, closed⟩ := taken.split_first
  rw [statement_of_takes begun]
  change statementBegunBy inner .keyword keyword tokens = _
  rw [same]
  obtain ⟨token, rfl, -⟩ := Token.Takes.single_iff.mp begun
  exact signal_cons_eq_ok_iff.mpr ⟨closed, rfl⟩

/-- The words of an expression statement do not begin as a definition, nor does the semicolon
behind them make up for a missing name. -/
theorem not_definesName (taken : Takes tokens (words ++ [.symbol ";"]) rest)
    (unnamed : ¬BeginsDefinition words) : ¬DefinesName tokens := by
  intro names
  obtain ⟨name, following, first⟩ := names
  have same := taken.map_word.symm.trans first.map_word
  match words with
  | [] => simp [Word.symbol, Word.keyword] at same
  | [_] => simp [Word.symbol, Word.identifier] at same
  | _ :: _ :: others =>
      simp only [List.cons_append, List.nil_append, List.cons.injEq] at same
      rw [same.1, same.2.1] at unnamed
      exact unnamed ⟨name, others, rfl⟩

theorem statement_complete (complete : Complete inner phrases) :
    Accepts inner.rounds (statement inner) (IsStatement phrases) Unbranched := by
  intro tokens words rest tree legible taken is after
  cases is with
  | block braced =>
      have read := body_complete complete braced legible taken
      obtain ⟨middle, opened, -⟩ := body_eq_ok_iff.mp read
      exact (statement_block_eq_ok_iff opened).mpr ⟨_, read, rfl⟩
  | empty => exact (statement_empty_eq_ok_iff taken).mpr ⟨rfl, rfl⟩
  | conditional tested braced others =>
      rw [List.cons_append, List.cons_append, List.append_assoc] at taken
      obtain ⟨middle, begun, taken⟩ := taken.split_first
      obtain ⟨first, test, taken⟩ := taken.split
      obtain ⟨second, body, branches⟩ := taken.split
      have legibleMiddle := legible.of_takes begun
      have legibleFirst := legibleMiddle.of_takes test
      have legibleSecond := legibleFirst.of_takes body
      rw [statement_of_takes begun]
      obtain ⟨token, rfl, -⟩ := Token.Takes.single_iff.mp begun
      exact conditional_cons_eq_ok_iff.mpr ⟨first, second, _, _, _,
        condition_complete complete tested legibleMiddle test,
        body_complete complete braced legibleFirst body,
        alternatives_complete complete others legibleSecond legibleSecond.short branches after, rfl⟩
  | whileLoop tested braced =>
      obtain ⟨middle, begun, taken⟩ := taken.split_first
      obtain ⟨first, test, body⟩ := taken.split
      have legibleMiddle := legible.of_takes begun
      rw [statement_of_takes begun]
      obtain ⟨token, rfl, -⟩ := Token.Takes.single_iff.mp begun
      exact whileLoop_cons_eq_ok_iff.mpr ⟨first, _, _,
        condition_complete complete tested legibleMiddle test,
        body_complete complete braced (legibleMiddle.of_takes test) body, rfl⟩
  | repeatLoop counted braced =>
      obtain ⟨middle, begun, taken⟩ := taken.split_first
      obtain ⟨first, count, body⟩ := taken.split
      have legibleMiddle := legible.of_takes begun
      rw [statement_of_takes begun]
      obtain ⟨token, rfl, -⟩ := Token.Takes.single_iff.mp begun
      exact repeatLoop_cons_eq_ok_iff.mpr ⟨first, _, _,
        condition_complete complete counted legibleMiddle count,
        body_complete complete braced (legibleMiddle.of_takes count) body, rfl⟩
  | forLoop first second third braced =>
      simp only [List.cons_append, List.append_assoc] at taken
      obtain ⟨middle, begun, taken⟩ := taken.split_first
      obtain ⟨start, opened, taken⟩ := taken.split_first
      have legibleStart := (legible.of_takes begun).of_takes opened
      refine forLoop_complete begun opened (.inr ⟨not_runsOverItems complete first taken, ?_⟩)
      exact countingLoop_complete complete first second third braced legibleStart taken
  | foreachLoop item inside braced =>
      simp only [List.cons_append] at taken
      obtain ⟨middle, begun, taken⟩ := taken.split_first
      obtain ⟨start, opened, taken⟩ := taken.split_first
      have legibleStart := (legible.of_takes begun).of_takes opened
      refine forLoop_complete begun opened (.inl ⟨?_, ?_⟩)
      · obtain ⟨first, named, others⟩ := taken.split_first
        obtain ⟨second, colon, -⟩ := others.split_first
        exact ⟨item, second, named.cons colon⟩
      · exact foreachLoop_complete complete item inside braced legibleStart taken
  | definition named defined =>
      have names := DefinesName.of_beginsDefinition taken named
      exact (statement_definition_eq_ok_iff names).mpr
        ⟨_, definition_complete complete defined legible taken, rfl⟩
  | ret returned =>
      obtain ⟨middle, begun, taken⟩ := taken.split_first
      obtain ⟨last, before, closed⟩ := taken.split
      have read := complete.expression .lowest (legible.of_takes begun) before returned
        (.of_symbol .lowest closed (by decide))
      exact (statement_ret_eq_ok_iff begun).mpr ⟨_, last, read, closed, rfl⟩
  | breakLoop => exact signal_complete (by rfl) taken
  | continueLoop => exact signal_complete (by rfl) taken
  | expression evaluated unnamed =>
      obtain ⟨word, others, rfl, begins⟩ := complete.beginsExpression evaluated
      obtain ⟨first, begun, -⟩ := Token.Takes.split_first
        (show Takes tokens (word :: (others ++ [.symbol ";"])) rest from taken)
      obtain ⟨last, before, closed⟩ := taken.split
      have read := complete.expression .lowest legible before evaluated
        (.of_symbol .lowest closed (by decide))
      rw [statement_expression begun begins.not_mem_statementWords (not_definesName taken unnamed)]
      exact expressionStatement_eq_ok_iff.mpr ⟨last, _, read, closed, rfl⟩

end Statements

section Levels

theorem complete_within (rounds room : Nat) :
    Complete ⟨statementWithin rounds room, expressionWithin rounds room, rounds⟩
      (Grammar.phrases room) := by
  induction room with
  | zero =>
      refine ⟨?_, ?_, ?_, ?_, ?_⟩
      · intro tokens words rest tree _ _ phrase
        exact phrase.elim
      · intro precedence tokens words rest tree _ _ phrase
        cases precedence <;> exact phrase.elim
      · intro words tree phrase
        exact phrase.elim
      · intro words tree phrase
        exact phrase.elim
      · intro words tree phrase
        exact phrase.elim
  | succ room induction =>
      refine ⟨?_, ?_, ?_, ?_, ?_⟩
      · intro tokens words rest tree legible taken phrase after
        exact statement_complete induction legible taken phrase after
      · intro precedence tokens words rest tree legible taken phrase ends
        exact expression_complete induction precedence legible taken phrase ends
      · exact IsStatement.begins induction.beginsExpression
      · exact IsExpression.begins
      · exact IsExpression.not_beginsItem

theorem statementsUntilEnd_complete (complete : Complete inner phrases) {rounds : Nat}
    {found trees : List Statement} (statements : Sequence phrases.statement words trees)
    (legible : Legible inner.rounds tokens) (short : tokens.length ≤ rounds)
    (taken : Takes tokens words []) :
    statementsUntilEnd inner.statement rounds found tokens = .ok (found.reverse ++ trees, []) := by
  induction statements generalizing rounds found tokens with
  | nil =>
      obtain ⟨all, rfl, nothing⟩ := taken
      rw [List.map_eq_nil_iff.mp nothing, List.append_nil, List.append_nil]
      exact statementsUntilEnd_nil rounds found
  | cons head tail induction =>
      obtain ⟨middle, first, others⟩ := taken.split
      obtain ⟨word, following, rfl, -⟩ := complete.beginsStatement head
      have shorter := first.length_lt (List.cons_ne_nil _ _)
      cases rounds with
      | zero => omega
      | succ rounds =>
          have nothing : Unbranched [] := by
            intro word found
            cases found
          have after := unbranched_of_sequence complete tail others nothing
          have read := complete.statement legible first head after
          obtain ⟨token, more, rfl, -, -⟩ := first.uncons
          rw [statementsUntilEnd_cons_eq_ok_iff]
          refine ⟨_, middle, read, ?_⟩
          rw [induction (legible.of_takes first) (by omega) others]
          simp

theorem ofTokensWithin_complete {room : Nat} {program : Program}
    (lexed : ∀ token ∈ tokens, token.IsLexed)
    (derived : IsProgram room (tokens.map Token.word) program) :
    Program.ofTokensWithin room tokens = .ok program := by
  rw [ofTokensWithin_eq_ok_iff]
  have legible : Legible tokens.length tokens := ⟨Nat.le_refl _, lexed⟩
  have taken : Takes tokens (tokens.map Token.word) [] := ⟨tokens, by simp, rfl⟩
  exact ⟨[], statementsUntilEnd_complete (complete_within tokens.length room) derived legible
    (Nat.le_refl _) taken⟩

end Levels

end Easel.Parser
