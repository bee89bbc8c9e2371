import Easel.Proofs.Parser.Dispatch

/-!
What a reader accepts is a phrase of the grammar. A reader that succeeds has taken the
words of a phrase whose tree it returns, and what an operand leaves behind does not go on
with an operator that binds more tightly. That second half is what makes the loop over
operators build the terms of the grammar: the operator it meets next never binds more
tightly than the one before it.

Everything here is relative to readers of one nesting level further in, of which the same
is known. The levels are put together in the last section.
-/

namespace Easel.Parser

open Grammar
open Token (Takes)

variable {Tree : Type} {inner : Inner} {phrases : Phrases} {tokens rest : List Token}

/-- Tokens that a text can have, no more of them than there are rounds. -/
structure Legible (rounds : Nat) (tokens : List Token) : Prop where
  short : tokens.length ≤ rounds
  lexed : ∀ token ∈ tokens, token.IsLexed

theorem Legible.of_takes {rounds : Nat} {words : List Word} (legible : Legible rounds tokens)
    (taken : Takes tokens words rest) : Legible rounds rest where
  short := by
    have total := taken.length
    have bound := legible.short
    omega
  lexed token member := legible.lexed token (taken.mem_of_mem member)

/-- A reader that succeeds has taken a phrase and returns its tree. -/
def Reads (rounds : Nat) (reader : Parser Tree) (phrase : List Word → Tree → Prop) : Prop :=
  ∀ {tokens rest tree}, Legible rounds tokens → reader tokens = .ok (tree, rest) →
    ∃ words, Takes tokens words rest ∧ phrase words tree

/-- The phrases of one level that are read where an operator of the given precedence
stands in front. -/
def operandPhrase (phrases : Phrases) : Precedence → List Word → Expression → Prop
  | .lowest => phrases.expression
  | precedence => phrases.term precedence.tighter

structure Sound (inner : Inner) (phrases : Phrases) : Prop where
  statement : Reads inner.rounds inner.statement phrases.statement
  expression : ∀ precedence,
    Reads inner.rounds (inner.expression precedence) (operandPhrase phrases precedence)
  ended : ∀ {precedence tokens rest tree}, Legible inner.rounds tokens →
    inner.expression precedence tokens = .ok (tree, rest) → ¬GoesOn precedence rest

theorem statementsUntilBrace_sound (sound : Sound inner phrases) {rounds : Nat}
    {found trees : List Statement} (legible : Legible inner.rounds tokens)
    (success : statementsUntilBrace inner rounds found tokens = .ok (trees, rest)) :
    ∃ words new, Takes tokens (words ++ [.symbol "\x7d"]) rest ∧
      Sequence phrases.statement words new ∧ trees = found.reverse ++ new := by
  induction rounds generalizing found tokens with
  | zero => exact (throw_eq_ok_iff.mp success).elim
  | succ rounds induction =>
      rcases statementsUntilBrace_succ_eq_ok_iff.mp success with closed | ⟨-, -, more⟩
      · exact ⟨[], [], closed.1, .nil, by simp [closed.2]⟩
      · obtain ⟨tree, middle, read, later⟩ := more
        obtain ⟨words, taken, statement⟩ := sound.statement legible read
        obtain ⟨others, new, takenOthers, statements, result⟩ :=
          induction (legible.of_takes taken) later
        refine ⟨words ++ others, tree :: new, ?_, .cons statement statements, ?_⟩
        · rw [List.append_assoc]
          exact taken.append takenOthers
        · simp [result]

theorem body_reads (sound : Sound inner phrases) :
    Reads inner.rounds (body inner) (IsBody phrases) := by
  intro tokens rest trees legible success
  obtain ⟨middle, opened, success⟩ := body_eq_ok_iff.mp success
  obtain ⟨words, new, taken, statements, result⟩ :=
    statementsUntilBrace_sound sound (legible.of_takes opened) success
  have same : trees = new := by simpa using result
  subst same
  exact ⟨_, opened.append taken, .braced statements⟩

theorem condition_reads (sound : Sound inner phrases) :
    Reads inner.rounds (condition inner) (IsCondition phrases) := by
  intro tokens rest tree legible success
  obtain ⟨first, second, opened, read, closed⟩ := condition_eq_ok_iff.mp success
  obtain ⟨words, taken, inside⟩ := sound.expression .lowest (legible.of_takes opened) read
  exact ⟨_, opened.append (taken.append closed), .parenthesised inside⟩

theorem itemsUntil_sound {item : Parser Tree} {phrase : List Word → Tree → Prop} {limit rounds : Nat}
    {closing : String} {found trees : List Tree} (reads : Reads limit item phrase)
    (apart : closing ≠ ",") (legible : Legible limit tokens)
    (success : itemsUntil item closing rounds found tokens = .ok (trees, rest)) :
    ∃ words new, Takes tokens (words ++ [.symbol closing]) rest ∧
      Separated phrase words new ∧ trees = found.reverse ++ new := by
  induction rounds generalizing found tokens with
  | zero => exact (throw_eq_ok_iff.mp success).elim
  | succ rounds induction =>
      obtain ⟨next, first, read, continued⟩ := (itemsUntil_succ_eq_ok_iff apart).mp success
      obtain ⟨words, taken, matched⟩ := reads legible read
      rcases continued with ⟨closed, result⟩ | ⟨second, separated, later⟩
      · exact ⟨words, [next], taken.append closed, .last matched, by simp [result]⟩
      · have separatedTaken := taken.append separated
        obtain ⟨others, new, takenOthers, items, result⟩ :=
          induction (legible.of_takes separatedTaken) later
        refine ⟨words ++ .symbol "," :: others, next :: new, ?_, .cons matched items, ?_⟩
        · simpa using separatedTaken.append takenOthers
        · simp [result]

/-- The opening symbol of the list has been taken before. -/
theorem listUntil_reads {item : Parser Tree} {phrase : List Word → Tree → Prop} {limit rounds : Nat}
    {closing : String} (opening : String) (reads : Reads limit item phrase)
    (apart : closing ≠ ",") :
    Reads limit (listUntil item closing rounds)
      (fun words => Listed phrase opening closing (.symbol opening :: words)) := by
  intro tokens rest trees legible success
  rcases listUntil_eq_ok_iff.mp success with ⟨closed, result⟩ | ⟨-, success⟩
  · subst result
    exact ⟨_, closed, .empty⟩
  · obtain ⟨words, new, taken, separated, result⟩ := itemsUntil_sound reads apart legible success
    have same : trees = new := by simpa using result
    subst same
    exact ⟨_, taken, .items separated⟩

theorem expectIdentifier_reads (rounds : Nat) : Reads rounds expectIdentifier IsParameter := by
  intro tokens rest name _ success
  exact ⟨_, expectIdentifier_eq_ok_iff.mp success, .identifier name⟩

theorem parameters_reads :
    Reads inner.rounds (parameters inner) (Listed IsParameter "(" ")") := by
  intro tokens rest names legible success
  obtain ⟨first, opened, success⟩ := parameters_eq_ok_iff.mp success
  obtain ⟨words, taken, listed⟩ := listUntil_reads "(" (expectIdentifier_reads inner.rounds)
    (by decide) (legible.of_takes opened) success
  exact ⟨_, opened.cons taken, listed⟩

theorem expressionList_reads (sound : Sound inner phrases) (opening : String) {closing : String}
    (apart : closing ≠ ",") :
    Reads inner.rounds (expressionList inner closing)
      (fun words => Listed phrases.expression opening closing (.symbol opening :: words)) :=
  listUntil_reads opening (sound.expression .lowest) apart

theorem definition_sound (sound : Sound inner phrases) {tree : Definition}
    (legible : Legible inner.rounds tokens)
    (begun : tokens.head?.map Token.word = some (.keyword "def"))
    (success : definition inner tokens = .ok (tree, rest)) :
    ∃ words, Takes tokens words rest ∧ IsFunction phrases words tree := by
  cases tokens with
  | nil => simp at begun
  | cons token following =>
      have spelled : token.word = .keyword "def" := by simpa using begun
      have word : Takes (token :: following) [.keyword "def"] following :=
        spelled ▸ Token.Takes.single token following
      obtain ⟨first, second, name, names, commands, naming, listed, braced, result⟩ :=
        definition_cons_eq_ok_iff.mp success
      subst result
      rcases naming with ⟨name, rfl, named⟩ | ⟨rfl, -, rfl⟩
      · have legibleFirst := (legible.of_takes word).of_takes named
        obtain ⟨parameterWords, takenParameters, parameters⟩ := parameters_reads legibleFirst listed
        obtain ⟨bodyWords, takenBody, body⟩ :=
          body_reads sound (legibleFirst.of_takes takenParameters) braced
        exact ⟨_, word.cons (named.cons (takenParameters.append takenBody)),
          .named name parameters body⟩
      · have legibleFirst := legible.of_takes word
        obtain ⟨parameterWords, takenParameters, parameters⟩ := parameters_reads legibleFirst listed
        obtain ⟨bodyWords, takenBody, body⟩ :=
          body_reads sound (legibleFirst.of_takes takenParameters) braced
        exact ⟨_, word.cons (takenParameters.append takenBody), .unnamed parameters body⟩

/-- What stands behind an operator of the given precedence: an operand without binary
operators, or an assignment that no operator extends. -/
def IsOperand (phrases : Phrases) (precedence : Precedence) (rest : List Token)
    (words : List Word) (tree : Expression) : Prop :=
  IsTerm phrases .unary words tree ∨
    precedence = .lowest ∧ IsExpression phrases words tree ∧ ¬GoesOn .lowest rest

theorem afterIdentifier_sound (sound : Sound inner phrases) {name : String}
    {precedence : Precedence} {tree : Expression} (legible : Legible inner.rounds tokens)
    (success : afterIdentifier inner name precedence tokens = .ok (tree, rest)) :
    ∃ words, Takes tokens words rest ∧
      IsOperand phrases precedence rest (.identifier name :: words) tree := by
  by_cases extended :
      ∃ word, tokens.head?.map Token.word = some word ∧ ExtendsIdentifier precedence word
  · obtain ⟨word, head, extends_⟩ := extended
    obtain ⟨middle, taken⟩ := Token.Takes.of_headWord? head
    have legibleMiddle := legible.of_takes taken
    rcases extends_ with rfl | ⟨operator, lowest, rfl⟩ | ⟨operator, after, rfl⟩
    · obtain ⟨arguments, read, result⟩ := (afterIdentifier_call_eq_ok_iff taken).mp success
      subst result
      obtain ⟨words, takenArguments, listed⟩ :=
        expressionList_reads sound "(" (by decide) legibleMiddle read
      exact ⟨_, taken.cons takenArguments, .inl (.primary (.call name listed))⟩
    · subst lowest
      obtain ⟨value, read, result⟩ := (afterIdentifier_assign_eq_ok_iff taken).mp success
      subst result
      obtain ⟨words, takenValue, assigned⟩ := sound.expression .lowest legibleMiddle read
      have ended := sound.ended legibleMiddle read
      exact ⟨_, taken.cons takenValue, .inr ⟨rfl, .assign operator name assigned, ended⟩⟩
    · obtain ⟨result, remaining⟩ := (afterIdentifier_increment_eq_ok_iff after taken).mp success
      subst result remaining
      exact ⟨_, taken, .inl (.primary (.increment name after))⟩
  · have alone : ∀ word, tokens.head?.map Token.word = some word →
        ¬ExtendsIdentifier precedence word := fun word head extends_ =>
      extended ⟨word, head, extends_⟩
    rw [afterIdentifier_alone alone] at success
    cases success
    exact ⟨[], Token.Takes.nil _, .inl (.primary (.identifier name))⟩

theorem operand_begins {precedence : Precedence} {tree : Expression}
    (success : operand inner precedence tokens = .ok (tree, rest)) :
    ∃ word middle, Takes tokens [word] middle ∧ BeginsOperand word := by
  cases tokens with
  | nil => cases success
  | cons token following =>
      refine ⟨token.word, following, Token.Takes.single token following, ?_⟩
      by_contra other
      rw [operand_of_not_begins other] at success
      cases success

theorem operand_sound (sound : Sound inner phrases) {precedence : Precedence} {tree : Expression}
    (legible : Legible inner.rounds tokens)
    (success : operand inner precedence tokens = .ok (tree, rest)) :
    ∃ words, Takes tokens words rest ∧ IsOperand phrases precedence rest words tree := by
  obtain ⟨⟨kind, lexeme⟩, middle, taken, class_⟩ := operand_begins success
  have legibleMiddle := legible.of_takes taken
  rcases class_ with rfl | rfl | rfl | ⟨operator, before, same⟩ | same | same | same
  · obtain ⟨-, rfl, rfl⟩ := (operand_number_eq_ok_iff taken).mp success
    exact ⟨_, taken, .inl (.primary (.number lexeme))⟩
  · obtain ⟨rfl, rfl⟩ := (operand_text_eq_ok_iff taken).mp success
    exact ⟨_, taken, .inl (.primary (.text lexeme))⟩
  · have named : Takes tokens [.identifier lexeme] middle := taken
    rw [operand_identifier named] at success
    obtain ⟨words, takenAfter, read⟩ := afterIdentifier_sound sound legibleMiddle success
    exact ⟨_, named.cons takenAfter, read⟩
  · rw [same] at taken
    obtain ⟨right, read, rfl⟩ := (operand_operator_eq_ok_iff before taken).mp success
    obtain ⟨words, takenRight, operand⟩ := sound.expression .unary legibleMiddle read
    exact ⟨_, taken.cons takenRight, .inl (.unary before operand)⟩
  · rw [same] at taken
    obtain ⟨last, read, closed⟩ := (operand_parenthesis_eq_ok_iff taken).mp success
    obtain ⟨words, takenInside, inside⟩ := sound.expression .lowest legibleMiddle read
    exact ⟨_, taken.append (takenInside.append closed), .inl (.primary (.parenthesised inside))⟩
  · rw [same] at taken
    obtain ⟨items, read, rfl⟩ := (operand_bracket_eq_ok_iff taken).mp success
    obtain ⟨words, takenItems, listed⟩ :=
      expressionList_reads sound "[" (by decide) legibleMiddle read
    exact ⟨_, taken.cons takenItems, .inl (.primary (.list listed))⟩
  · rw [same] at taken
    obtain ⟨function, read, rfl⟩ := (operand_def_eq_ok_iff taken).mp success
    obtain ⟨words, takenAll, defined⟩ := definition_sound sound legible taken.headWord? read
    exact ⟨_, takenAll, .inl (.primary (.function defined))⟩

theorem operandPhrase_of_ne_lowest (phrases : Phrases) {precedence : Precedence}
    (operators : precedence ≠ .lowest) :
    operandPhrase phrases precedence = phrases.term precedence.tighter := by
  cases precedence <;> first | rfl | exact absurd rfl operators

theorem not_goesOn_index (tokens : List Token) : ¬GoesOn .index tokens := by
  intro goesOn
  obtain ⟨level, found, tighter⟩ := goesOn
  rcases operatorPrecedence?_eq_some_iff.mp found with ⟨-, rfl⟩ | ⟨operator, -, -, rfl⟩
  · exact Nat.lt_irrefl _ tighter
  · exact absurd operator.rank_precedence_le_index (Nat.not_le_of_lt tighter)

theorem not_goesOn_unary (tokens : List Token) : ¬GoesOn .unary tokens := by
  intro goesOn
  obtain ⟨level, -, tighter⟩ := goesOn
  exact absurd level.rank_le_unary (Nat.not_le_of_lt tighter)

theorem not_goesOn_nil (precedence : Precedence) : ¬GoesOn precedence [] := by
  intro goesOn
  obtain ⟨level, found, -⟩ := goesOn
  cases found

theorem le_of_not_goesOn {precedence level : Precedence} (ended : ¬GoesOn precedence tokens)
    (found : operatorPrecedence? tokens.head? = some level) : level.rank ≤ precedence.rank :=
  Nat.le_of_not_lt fun beyond => ended ⟨level, found, beyond⟩

theorem application_sound (sound : Sound inner phrases) {level next : Precedence}
    {left tree : Expression} {leftWords : List Word} (legible : Legible inner.rounds tokens)
    (term : IsTerm phrases level leftWords left) (bounded : ¬GoesOn level tokens)
    (found : operatorPrecedence? tokens.head? = some next)
    (success : application inner left tokens = .ok (tree, rest)) :
    ∃ words, words ≠ [] ∧ Takes tokens words rest ∧
      IsTerm phrases next (leftWords ++ words) tree ∧ ¬GoesOn next rest := by
  have within := le_of_not_goesOn bounded found
  rcases operatorPrecedence?_eq_some_iff.mp found with ⟨bracket, rfl⟩ | ⟨operator, written, spelled, rfl⟩
  · obtain ⟨middle, opened⟩ := Token.Takes.of_headWord? bracket
    obtain ⟨first, index, read, closed, rfl⟩ := (application_bracket_eq_ok_iff opened).mp success
    obtain ⟨words, taken, inside⟩ := sound.expression .lowest (legible.of_takes opened) read
    refine ⟨_, ?_, opened.append (taken.append closed), ?_, not_goesOn_index rest⟩
    · simp
    · simpa using IsTerm.index (term.loosen within (by decide)) inside
  · obtain ⟨middle, taken⟩ := Token.Takes.of_headWord? spelled
    obtain ⟨right, read, rfl⟩ := (application_operator_eq_ok_iff written taken).mp success
    have legibleRight := legible.of_takes taken
    obtain ⟨words, takenRight, second⟩ := sound.expression operator.precedence legibleRight read
    have first := term.loosen within operator.precedence_ne_lowest
    rw [operandPhrase_of_ne_lowest phrases operator.precedence_ne_lowest] at second
    refine ⟨_, ?_, taken.cons takenRight, .binary written first second, sound.ended legibleRight read⟩
    simp

/-- The loop over operators builds a term, for as long as they bind more tightly than the
operator in front. -/
theorem applications_sound (sound : Sound inner phrases) {precedence level : Precedence}
    {rounds : Nat} {left tree : Expression} {leftWords : List Word}
    (legible : Legible inner.rounds tokens) (short : tokens.length ≤ rounds)
    (term : IsTerm phrases level leftWords left) (above : precedence.tighter.rank ≤ level.rank)
    (bounded : ¬GoesOn level tokens)
    (success : applications inner precedence rounds left tokens = .ok (tree, rest)) :
    ∃ words, Takes tokens words rest ∧
      IsTerm phrases precedence.tighter (leftWords ++ words) tree ∧ ¬GoesOn precedence rest := by
  induction rounds generalizing tokens level left leftWords with
  | zero =>
      have none : tokens = [] := List.length_eq_zero_iff.mp (Nat.le_zero.mp short)
      cases success
      refine ⟨[], Token.Takes.nil rest, ?_, ?_⟩
      · rw [List.append_nil]
        exact term.loosen above precedence.tighter_ne_lowest
      · rw [none]
        exact not_goesOn_nil precedence
  | succ rounds induction =>
      by_cases goesOn : GoesOn precedence tokens
      · rw [applications_of_goesOn goesOn, bind_eq_ok_iff] at success
        obtain ⟨extended, middle, applied, later⟩ := success
        obtain ⟨next, found, tighter⟩ := goesOn
        obtain ⟨words, nonempty, taken, longer, ended⟩ :=
          application_sound sound legible term bounded found applied
        have shorter := taken.length_lt nonempty
        have fewer : middle.length ≤ rounds := by omega
        have aboveNext := Precedence.rank_tighter_le tighter
        obtain ⟨others, takenOthers, whole, stopped⟩ :=
          induction (legible.of_takes taken) fewer longer aboveNext ended later
        refine ⟨words ++ others, taken.append takenOthers, ?_, stopped⟩
        rw [← List.append_assoc]
        exact whole
      · rw [applications_of_not_goesOn goesOn] at success
        cases success
        refine ⟨[], Token.Takes.nil rest, ?_, goesOn⟩
        rw [List.append_nil]
        exact term.loosen above precedence.tighter_ne_lowest

/-- A whole expression. Behind an assignment no operator goes on, since the value of the
assignment would have taken it. -/
theorem expression_sound (sound : Sound inner phrases) {precedence : Precedence}
    {tree : Expression} (legible : Legible inner.rounds tokens)
    (success : expression inner precedence tokens = .ok (tree, rest)) :
    (∃ words, Takes tokens words rest ∧
      operandPhrase ⟨IsStatement phrases, IsExpression phrases, IsTerm phrases⟩ precedence
        words tree) ∧ ¬GoesOn precedence rest := by
  obtain ⟨left, middle, first, later⟩ := bind_eq_ok_iff.mp success
  obtain ⟨words, taken, operand⟩ := operand_sound sound legible first
  rcases operand with term | ⟨rfl, assigned, ended⟩
  · have legibleMiddle := legible.of_takes taken
    have above : precedence.tighter.rank ≤ Precedence.unary.rank := Precedence.rank_le_unary _
    obtain ⟨others, takenOthers, whole, stopped⟩ := applications_sound sound legibleMiddle
      legibleMiddle.short term above (not_goesOn_unary middle) later
    refine ⟨⟨words ++ others, taken.append takenOthers, ?_⟩, stopped⟩
    cases precedence with
    | lowest => exact .term whole
    | _ => exact whole
  · rw [applications_of_not_goesOn ended] at later
    cases later
    exact ⟨⟨words, taken, assigned⟩, ended⟩

theorem alternatives_sound (sound : Sound inner phrases) {rounds : Nat} {tree : Alternatives}
    (legible : Legible inner.rounds tokens)
    (success : alternatives inner rounds tokens = .ok (tree, rest)) :
    ∃ words, Takes tokens words rest ∧ IsAlternatives phrases words tree := by
  induction rounds generalizing tokens tree with
  | zero =>
      cases success
      exact ⟨[], Token.Takes.nil rest, .none⟩
  | succ rounds induction =>
      rcases alternatives_succ_eq_ok_iff.mp success with another | final | ended
      · obtain ⟨start, first, second, test, branch, others, begun, tested, braced, later, rfl⟩ :=
          another
        have legibleStart := legible.of_takes begun
        obtain ⟨conditionWords, takenCondition, condition⟩ :=
          condition_reads sound legibleStart tested
        have legibleFirst := legibleStart.of_takes takenCondition
        obtain ⟨bodyWords, takenBody, body⟩ := body_reads sound legibleFirst braced
        obtain ⟨restWords, takenRest, alternatives⟩ :=
          induction (legibleFirst.of_takes takenBody) later
        refine ⟨_, ?_, .branch condition body alternatives⟩
        exact ((begun.append takenCondition).append takenBody).append takenRest
      · obtain ⟨start, branch, begun, braced, rfl⟩ := final
        obtain ⟨words, taken, body⟩ := body_reads sound (legible.of_takes begun) braced
        exact ⟨_, begun.cons taken, .otherwise body⟩
      · obtain ⟨-, -, rfl, rfl⟩ := ended
        exact ⟨[], Token.Takes.nil rest, .none⟩

section Statements

variable {word : Word} {middle : List Token} {tree : Statement}

theorem conditional_sound (sound : Sound inner phrases) (legible : Legible inner.rounds tokens)
    (begun : Takes tokens [.keyword "if"] middle)
    (success : conditional inner tokens = .ok (tree, rest)) :
    ∃ words, Takes tokens words rest ∧ IsStatement phrases words tree := by
  obtain ⟨token, rfl, -⟩ := Token.Takes.single_iff.mp begun
  obtain ⟨first, second, test, branch, others, tested, braced, later, rfl⟩ :=
    conditional_cons_eq_ok_iff.mp success
  have legibleMiddle := legible.of_takes begun
  obtain ⟨conditionWords, takenCondition, condition⟩ := condition_reads sound legibleMiddle tested
  have legibleFirst := legibleMiddle.of_takes takenCondition
  obtain ⟨bodyWords, takenBody, body⟩ := body_reads sound legibleFirst braced
  obtain ⟨restWords, takenRest, alternatives⟩ :=
    alternatives_sound sound (legibleFirst.of_takes takenBody) later
  refine ⟨_, ?_, .conditional condition body alternatives⟩
  exact ((begun.append takenCondition).append takenBody).append takenRest

theorem whileLoop_sound (sound : Sound inner phrases) (legible : Legible inner.rounds tokens)
    (begun : Takes tokens [.keyword "while"] middle)
    (success : whileLoop inner tokens = .ok (tree, rest)) :
    ∃ words, Takes tokens words rest ∧ IsStatement phrases words tree := by
  obtain ⟨token, rfl, -⟩ := Token.Takes.single_iff.mp begun
  obtain ⟨first, test, round, tested, braced, rfl⟩ := whileLoop_cons_eq_ok_iff.mp success
  have legibleMiddle := legible.of_takes begun
  obtain ⟨conditionWords, takenCondition, condition⟩ := condition_reads sound legibleMiddle tested
  obtain ⟨bodyWords, takenBody, body⟩ :=
    body_reads sound (legibleMiddle.of_takes takenCondition) braced
  exact ⟨_, (begun.append takenCondition).append takenBody, .whileLoop condition body⟩

theorem repeatLoop_sound (sound : Sound inner phrases) (legible : Legible inner.rounds tokens)
    (begun : Takes tokens [.keyword "repeat"] middle)
    (success : repeatLoop inner tokens = .ok (tree, rest)) :
    ∃ words, Takes tokens words rest ∧ IsStatement phrases words tree := by
  obtain ⟨token, rfl, -⟩ := Token.Takes.single_iff.mp begun
  obtain ⟨first, count, round, counted, braced, rfl⟩ := repeatLoop_cons_eq_ok_iff.mp success
  have legibleMiddle := legible.of_takes begun
  obtain ⟨countWords, takenCount, condition⟩ := condition_reads sound legibleMiddle counted
  obtain ⟨bodyWords, takenBody, body⟩ :=
    body_reads sound (legibleMiddle.of_takes takenCount) braced
  exact ⟨_, (begun.append takenCount).append takenBody, .repeatLoop condition body⟩

theorem foreachLoop_sound (sound : Sound inner phrases) (legible : Legible inner.rounds tokens)
    (success : foreachLoop inner tokens = .ok (tree, rest)) :
    ∃ words, Takes tokens words rest ∧
      IsStatement phrases (.keyword "for" :: .symbol "(" :: words) tree := by
  obtain ⟨first, second, third, fourth, item, items, round, named, separated, read, closed, braced,
    rfl⟩ := foreachLoop_eq_ok_iff.mp success
  have legibleSecond := legible.of_takes (named.cons separated)
  obtain ⟨words, taken, inside⟩ := sound.expression .lowest legibleSecond read
  have legibleFourth := (legibleSecond.of_takes taken).of_takes closed
  obtain ⟨bodyWords, takenBody, body⟩ := body_reads sound legibleFourth braced
  refine ⟨_, ?_, .foreachLoop item inside body⟩
  exact (named.cons (separated.cons taken)).append (closed.cons takenBody)

theorem countingLoop_sound (sound : Sound inner phrases) (legible : Legible inner.rounds tokens)
    (success : countingLoop inner tokens = .ok (tree, rest)) :
    ∃ words, Takes tokens words rest ∧
      IsStatement phrases (.keyword "for" :: .symbol "(" :: words) tree := by
  obtain ⟨first, second, third, fourth, fifth, sixth, start, test, step, round, readStart, comma,
    readTest, secondComma, readStep, closed, braced, rfl⟩ := countingLoop_eq_ok_iff.mp success
  obtain ⟨startWords, takenStart, isStart⟩ := sound.expression .lowest legible readStart
  have legibleSecond := (legible.of_takes takenStart).of_takes comma
  obtain ⟨testWords, takenTest, isTest⟩ := sound.expression .lowest legibleSecond readTest
  have legibleFourth := (legibleSecond.of_takes takenTest).of_takes secondComma
  obtain ⟨stepWords, takenStep, isStep⟩ := sound.expression .lowest legibleFourth readStep
  have legibleSixth := (legibleFourth.of_takes takenStep).of_takes closed
  obtain ⟨bodyWords, takenBody, body⟩ := body_reads sound legibleSixth braced
  refine ⟨_, ?_, .forLoop isStart isTest isStep body⟩
  exact ((takenStart.append (comma.cons takenTest)).append (secondComma.cons takenStep)).append
    (closed.cons takenBody)

theorem forLoop_sound (sound : Sound inner phrases) (legible : Legible inner.rounds tokens)
    (begun : Takes tokens [.keyword "for"] middle)
    (success : forLoop inner tokens = .ok (tree, rest)) :
    ∃ words, Takes tokens words rest ∧ IsStatement phrases words tree := by
  obtain ⟨token, rfl, -⟩ := Token.Takes.single_iff.mp begun
  obtain ⟨first, opened, chosen⟩ := forLoop_cons_eq_ok_iff.mp success
  have legibleFirst := (legible.of_takes begun).of_takes opened
  rcases chosen with ⟨-, success⟩ | ⟨-, success⟩
  · obtain ⟨words, taken, loop⟩ := foreachLoop_sound sound legibleFirst success
    exact ⟨_, begun.cons (opened.cons taken), loop⟩
  · obtain ⟨words, taken, loop⟩ := countingLoop_sound sound legibleFirst success
    exact ⟨_, begun.cons (opened.cons taken), loop⟩

theorem signal_sound {keyword : String} {command : Statement}
    (is : IsStatement phrases [.keyword keyword, .symbol ";"] command)
    (begun : Takes tokens [.keyword keyword] middle)
    (success : signal command tokens = .ok (tree, rest)) :
    ∃ words, Takes tokens words rest ∧ IsStatement phrases words tree := by
  obtain ⟨token, rfl, -⟩ := Token.Takes.single_iff.mp begun
  obtain ⟨closed, rfl⟩ := signal_cons_eq_ok_iff.mp success
  exact ⟨_, begun.cons closed, is⟩

theorem DefinesName.of_beginsDefinition {words : List Word} (taken : Takes tokens words rest)
    (begins : BeginsDefinition words) : DefinesName tokens := by
  obtain ⟨name, others, rfl⟩ := begins
  obtain ⟨following, first, -⟩ := Token.Takes.split
    (show Takes tokens ([.keyword "def", .identifier name] ++ others) rest from taken)
  exact ⟨name, following, first⟩

/-- A function without a name has a parenthesis where the name would be. -/
theorem beginsDefinition_of_definesName {words : List Word} {function : Definition}
    (defined : IsFunction phrases words function) (taken : Takes tokens words rest)
    (names : DefinesName tokens) : BeginsDefinition words := by
  cases defined with
  | named name listed braced => exact ⟨name, _, rfl⟩
  | unnamed listed braced =>
      obtain ⟨name, following, first⟩ := names
      have same := taken.map_word.symm.trans first.map_word
      cases listed <;> simp [Word.symbol, Word.identifier] at same

theorem expressionStatement_sound (sound : Sound inner phrases)
    (legible : Legible inner.rounds tokens) (unnamed : ¬DefinesName tokens)
    (success : expressionStatement inner tokens = .ok (tree, rest)) :
    ∃ words, Takes tokens words rest ∧ IsStatement phrases words tree := by
  obtain ⟨first, value, read, closed, rfl⟩ := expressionStatement_eq_ok_iff.mp success
  obtain ⟨words, taken, evaluated⟩ := sound.expression .lowest legible read
  exact ⟨_, taken.append closed,
    .expression evaluated (fun begins => unnamed (.of_beginsDefinition taken begins))⟩

theorem statement_sound (sound : Sound inner phrases) (legible : Legible inner.rounds tokens)
    (success : statement inner tokens = .ok (tree, rest)) :
    ∃ words, Takes tokens words rest ∧ IsStatement phrases words tree := by
  cases tokens with
  | nil => cases success
  | cons token following =>
      have begun := Token.Takes.single token following
      by_cases other : token.word ∉ statementWords
      · by_cases names : DefinesName (token :: following)
        · obtain ⟨function, read, rfl⟩ := (statement_definition_eq_ok_iff names).mp success
          obtain ⟨name, others, first⟩ := id names
          obtain ⟨words, taken, defined⟩ := definition_sound sound legible first.headWord? read
          exact ⟨words, taken,
            .definition (beginsDefinition_of_definesName defined taken names) defined⟩
        · rw [statement_expression begun other names] at success
          exact expressionStatement_sound sound legible names success
      · have member := Decidable.not_not.mp other
        simp only [statementWords, List.mem_cons, List.not_mem_nil, or_false] at member
        rcases member with word | word | word | word | word | word | word | word | word <;>
          rw [word] at begun
        · obtain ⟨trees, read, rfl⟩ := (statement_block_eq_ok_iff begun).mp success
          obtain ⟨words, taken, braced⟩ := body_reads sound legible read
          exact ⟨words, taken, .block braced⟩
        · obtain ⟨rfl, rfl⟩ := (statement_empty_eq_ok_iff begun).mp success
          exact ⟨_, begun, .empty⟩
        · rw [statement_of_takes begun] at success
          exact conditional_sound sound legible begun success
        · rw [statement_of_takes begun] at success
          exact whileLoop_sound sound legible begun success
        · rw [statement_of_takes begun] at success
          exact forLoop_sound sound legible begun success
        · rw [statement_of_takes begun] at success
          exact repeatLoop_sound sound legible begun success
        · obtain ⟨value, last, read, closed, rfl⟩ := (statement_ret_eq_ok_iff begun).mp success
          obtain ⟨words, taken, returned⟩ :=
            sound.expression .lowest (legible.of_takes begun) read
          exact ⟨_, (begun.append taken).append closed, .ret returned⟩
        · rw [statement_of_takes begun] at success
          exact signal_sound .breakLoop begun success
        · rw [statement_of_takes begun] at success
          exact signal_sound .continueLoop begun success

end Statements

section Levels

theorem sound_within (rounds room : Nat) :
    Sound ⟨statementWithin rounds room, expressionWithin rounds room, rounds⟩
      (Grammar.phrases room) := by
  induction room with
  | zero =>
      refine ⟨?_, ?_, ?_⟩
      · intro tokens rest tree _ success
        cases success
      · intro precedence tokens rest tree _ success
        cases success
      · intro precedence tokens rest tree _ success
        cases success
  | succ room induction =>
      refine ⟨?_, ?_, ?_⟩
      · intro tokens rest tree legible success
        exact statement_sound induction legible success
      · intro precedence tokens rest tree legible success
        exact (expression_sound induction legible success).1
      · intro precedence tokens rest tree legible success
        exact (expression_sound induction legible success).2

theorem statementsUntilEnd_sound {limit rounds : Nat} {reader : Parser Statement}
    {phrases : Phrases} (reads : Reads limit reader (IsStatement phrases))
    {found trees : List Statement} (legible : Legible limit tokens)
    (short : tokens.length ≤ rounds)
    (success : statementsUntilEnd reader rounds found tokens = .ok (trees, rest)) :
    ∃ new, Sequence (IsStatement phrases) (tokens.map Token.word) new ∧
      trees = found.reverse ++ new := by
  induction rounds generalizing found tokens with
  | zero =>
      have none : tokens = [] := List.length_eq_zero_iff.mp (Nat.le_zero.mp short)
      subst none
      cases success
      exact ⟨[], .nil, by simp⟩
  | succ rounds induction =>
      cases tokens with
      | nil =>
          cases success
          exact ⟨[], .nil, by simp⟩
      | cons token following =>
          obtain ⟨tree, middle, read, later⟩ := statementsUntilEnd_cons_eq_ok_iff.mp success
          obtain ⟨words, taken, statement⟩ := reads legible read
          -- A statement has a word, so fewer tokens are left than there were rounds.
          have shorter := taken.length_lt statement.words_ne_nil
          have fewer : middle.length ≤ rounds := by omega
          obtain ⟨new, statements, result⟩ := induction (legible.of_takes taken) fewer later
          refine ⟨tree :: new, ?_, by simp [result]⟩
          rw [taken.map_word]
          exact .cons statement statements

theorem ofTokensWithin_sound {room : Nat} {program : Program}
    (lexed : ∀ token ∈ tokens, token.IsLexed)
    (success : Program.ofTokensWithin room tokens = .ok program) :
    IsProgram room (tokens.map Token.word) program := by
  obtain ⟨rest, read⟩ := ofTokensWithin_eq_ok_iff.mp success
  have legible : Legible tokens.length tokens := ⟨Nat.le_refl _, lexed⟩
  cases room with
  | zero =>
      cases tokens with
      | nil =>
          cases read
          exact .nil
      | cons token following =>
          obtain ⟨tree, middle, first, -⟩ := statementsUntilEnd_cons_eq_ok_iff.mp read
          cases first
  | succ room =>
      have sound := sound_within tokens.length (room + 1)
      obtain ⟨new, statements, result⟩ :=
        statementsUntilEnd_sound sound.statement legible (Nat.le_refl _) read
      have same : program = new := by simpa using result
      subst same
      exact statements

end Levels

end Easel.Parser
