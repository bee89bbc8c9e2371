import Easel.Proofs.Lexemes
import Easel.Syntax

/-!
The grammar of programs, apart from any way of reading it. It speaks of words: of a
token the class and the spelling count, and the place does not. Each rule relates the
words of a phrase to its tree.

Phrases contain one another only through `Phrases`, those of one nesting level further
in. A level is opened by every statement, by every expression that may be an assignment,
by the right operand of a binary operator and by the operand of an operator in front of
it. Parentheses, lists and indices open one only because an expression stands in them,
and the left operand of an operator opens none, so a chain of operators may be long
without being deep.
-/

namespace Easel

/-- The next level of operators that bind more tightly. Behind the last one there are
only operands. -/
def Precedence.tighter : Precedence → Precedence
  | .lowest => .logical
  | .logical => .comparison
  | .comparison => .sum
  | .sum => .product
  | .product => .power
  | .power => .member
  | .member => .index
  | .index | .unary => .unary

namespace Precedence

theorem rank_tighter {level : Precedence} (binary : level ≠ .unary) :
    level.tighter.rank = level.rank + 1 := by
  cases level <;> first | rfl | exact absurd rfl binary

theorem rank_le_tighter (level : Precedence) : level.rank ≤ level.tighter.rank := by
  cases level <;> decide

theorem rank_lt_tighter_or (level : Precedence) :
    level.rank < level.tighter.rank ∨ level.tighter = .unary := by
  cases level <;> decide

theorem rank_tighter_le {level next : Precedence} (below : level.rank < next.rank) :
    level.tighter.rank ≤ next.rank := by
  revert below
  cases level <;> cases next <;> decide

theorem tighter_ne_lowest (level : Precedence) : level.tighter ≠ .lowest := by
  cases level <;> decide

theorem rank_le_unary (level : Precedence) : level.rank ≤ Precedence.unary.rank := by
  cases level <;> decide

theorem eq_of_rank_eq {left right : Precedence} (same : left.rank = right.rank) : left = right := by
  cases left <;> cases right <;> first | rfl | cases same

end Precedence

namespace BinaryOperator

theorem precedence_ne_lowest (operator : BinaryOperator) : operator.precedence ≠ .lowest := by
  cases operator <;> decide

theorem rank_precedence_le_index (operator : BinaryOperator) :
    operator.precedence.rank ≤ Precedence.index.rank := by
  cases operator <;> decide

end BinaryOperator

namespace Grammar

/-- The number that a numeral spells: its digits without the point, over a power of ten
for those behind the point. -/
def numeral (lexeme : String) : Number :=
  let whole := lexeme.toList.takeWhile (· ≠ '.')
  let fraction := (lexeme.toList.dropWhile (· ≠ '.')).drop 1
  Number.nearest false (Decimal.naturalOf (whole ++ fraction)) (Nat.pow 10 fraction.length)

inductive Sequence {Tree : Type} (phrase : List Word → Tree → Prop) :
    List Word → List Tree → Prop where
  | nil : Sequence phrase [] []
  | cons {words rest : List Word} {tree : Tree} {trees : List Tree}
      (head : phrase words tree) (tail : Sequence phrase rest trees) :
      Sequence phrase (words ++ rest) (tree :: trees)

inductive Separated {Tree : Type} (phrase : List Word → Tree → Prop) :
    List Word → List Tree → Prop where
  | last {words : List Word} {tree : Tree} (only : phrase words tree) :
      Separated phrase words [tree]
  | cons {words rest : List Word} {tree : Tree} {trees : List Tree}
      (head : phrase words tree) (tail : Separated phrase rest trees) :
      Separated phrase (words ++ .symbol "," :: rest) (tree :: trees)

inductive Listed {Tree : Type} (phrase : List Word → Tree → Prop) (opening closing : String) :
    List Word → List Tree → Prop where
  | empty : Listed phrase opening closing [.symbol opening, .symbol closing] []
  | items {words : List Word} {trees : List Tree} (separated : Separated phrase words trees) :
      Listed phrase opening closing (.symbol opening :: words ++ [.symbol closing]) trees

/-- The phrases of one nesting level. A term of some level of precedence holds operators
of that level and of tighter ones outside its parentheses. -/
structure Phrases where
  statement : List Word → Statement → Prop
  expression : List Word → Expression → Prop
  term : Precedence → List Word → Expression → Prop

inductive IsBody (inner : Phrases) : List Word → List Statement → Prop where
  | braced {words : List Word} {trees : List Statement}
      (statements : Sequence inner.statement words trees) :
      IsBody inner (.symbol "\x7b" :: words ++ [.symbol "\x7d"]) trees

inductive IsCondition (inner : Phrases) : List Word → Expression → Prop where
  | parenthesised {words : List Word} {tree : Expression} (inside : inner.expression words tree) :
      IsCondition inner (.symbol "(" :: words ++ [.symbol ")"]) tree

inductive IsParameter : List Word → String → Prop where
  | identifier (name : String) : IsParameter [.identifier name] name

inductive IsFunction (inner : Phrases) : List Word → Definition → Prop where
  | named {parameterWords bodyWords : List Word} {parameters : List String}
      {body : List Statement} (name : String)
      (listed : Listed IsParameter "(" ")" parameterWords parameters)
      (braced : IsBody inner bodyWords body) :
      IsFunction inner (.keyword "def" :: .identifier name :: parameterWords ++ bodyWords)
        (.mk (some name) parameters body)
  | unnamed {parameterWords bodyWords : List Word} {parameters : List String}
      {body : List Statement} (listed : Listed IsParameter "(" ")" parameterWords parameters)
      (braced : IsBody inner bodyWords body) :
      IsFunction inner (.keyword "def" :: parameterWords ++ bodyWords) (.mk none parameters body)

inductive IsPrimary (inner : Phrases) : List Word → Expression → Prop where
  | parenthesised {words : List Word} {tree : Expression} (inside : inner.expression words tree) :
      IsPrimary inner (.symbol "(" :: words ++ [.symbol ")"]) tree
  | number (lexeme : String) :
      IsPrimary inner [⟨.number, lexeme⟩] (.literal (.number (numeral lexeme)))
  | text (lexeme : String) : IsPrimary inner [⟨.text, lexeme⟩] (.literal (.text lexeme))
  | identifier (name : String) : IsPrimary inner [.identifier name] (.identifier name)
  | call {words : List Word} {arguments : List Expression} (name : String)
      (listed : Listed inner.expression "(" ")" words arguments) :
      IsPrimary inner (.identifier name :: words) (.call name arguments)
  | increment {operator : UnaryOperator} (name : String)
      (after : operator.isAfterOperand = true) :
      IsPrimary inner [.identifier name, .operator operator.spelling]
        (.unary operator (.identifier name))
  | list {words : List Word} {items : List Expression}
      (listed : Listed inner.expression "[" "]" words items) :
      IsPrimary inner words (.list items)
  | function {words : List Word} {definition : Definition}
      (defined : IsFunction inner words definition) :
      IsPrimary inner words (.function definition)

/-- A term of a level of precedence. The left operand of an operator may hold operators of
the same level and the right one may not, so operators of one level group to the left. -/
inductive IsTerm (inner : Phrases) : Precedence → List Word → Expression → Prop where
  | primary {words : List Word} {tree : Expression} (operand : IsPrimary inner words tree) :
      IsTerm inner .unary words tree
  | unary {operator : UnaryOperator} {words : List Word} {tree : Expression}
      (before : operator.isAfterOperand = false) (operand : inner.term .unary words tree) :
      IsTerm inner .unary (.operator operator.spelling :: words) (.unary operator tree)
  | index {leftWords words : List Word} {left right : Expression}
      (container : IsTerm inner .index leftWords left) (inside : inner.expression words right) :
      IsTerm inner .index (leftWords ++ .symbol "[" :: words ++ [.symbol "]"])
        (.binary .index left right)
  | binary {operator : BinaryOperator} {leftWords rightWords : List Word}
      {left right : Expression} (written : operator ≠ .index)
      (first : IsTerm inner operator.precedence leftWords left)
      (second : inner.term operator.precedence.tighter rightWords right) :
      IsTerm inner operator.precedence
        (leftWords ++ .operator operator.spelling :: rightWords) (.binary operator left right)
  | tighter {level : Precedence} {words : List Word} {tree : Expression}
      (binary : level ≠ .lowest ∧ level ≠ .unary)
      (term : IsTerm inner level.tighter words tree) : IsTerm inner level words tree

theorem IsTerm.loosen {inner : Phrases} {level looser : Precedence} {words : List Word}
    {tree : Expression} (term : IsTerm inner level words tree) (atLeast : looser.rank ≤ level.rank)
    (operators : looser ≠ .lowest) : IsTerm inner looser words tree := by
  obtain ⟨steps, distance⟩ := Nat.exists_eq_add_of_le atLeast
  induction steps generalizing looser with
  | zero => rwa [← Precedence.eq_of_rank_eq distance]
  | succ steps induction =>
      have binary : looser ≠ .unary := by
        intro same
        have bound := level.rank_le_unary
        rw [same] at distance
        omega
      have next := Precedence.rank_tighter binary
      refine .tighter ⟨operators, binary⟩ (induction ?_ looser.tighter_ne_lowest ?_)
      · omega
      · omega

/-- An expression where the lowest precedence is allowed: an assignment or any term. -/
inductive IsExpression (inner : Phrases) : List Word → Expression → Prop where
  | assign {words : List Word} {value : Expression} (operator : AssignOperator) (name : String)
      (assigned : inner.expression words value) :
      IsExpression inner (.identifier name :: .operator operator.spelling :: words)
        (.assign operator name value)
  | term {words : List Word} {tree : Expression} (loosest : IsTerm inner .logical words tree) :
      IsExpression inner words tree

inductive IsAlternatives (inner : Phrases) : List Word → Alternatives → Prop where
  | none : IsAlternatives inner [] .none
  | otherwise {words : List Word} {body : List Statement} (braced : IsBody inner words body) :
      IsAlternatives inner (.keyword "else" :: words) (.otherwise body)
  | branch {conditionWords bodyWords restWords : List Word} {condition : Expression}
      {body : List Statement} {rest : Alternatives}
      (tested : IsCondition inner conditionWords condition) (braced : IsBody inner bodyWords body)
      (others : IsAlternatives inner restWords rest) :
      IsAlternatives inner (.keyword "elif" :: conditionWords ++ bodyWords ++ restWords)
        (.branch condition body rest)

/-- Words that a statement can only begin as the definition of a named function. -/
def BeginsDefinition (words : List Word) : Prop :=
  ∃ name rest, words = .keyword "def" :: .identifier name :: rest

inductive IsStatement (inner : Phrases) : List Word → Statement → Prop where
  | block {words : List Word} {body : List Statement} (braced : IsBody inner words body) :
      IsStatement inner words (.block body)
  | empty : IsStatement inner [.symbol ";"] .empty
  | conditional {conditionWords bodyWords restWords : List Word} {condition : Expression}
      {body : List Statement} {rest : Alternatives}
      (tested : IsCondition inner conditionWords condition) (braced : IsBody inner bodyWords body)
      (others : IsAlternatives inner restWords rest) :
      IsStatement inner (.keyword "if" :: conditionWords ++ bodyWords ++ restWords)
        (.conditional condition body rest)
  | whileLoop {conditionWords bodyWords : List Word} {condition : Expression}
      {body : List Statement} (tested : IsCondition inner conditionWords condition)
      (braced : IsBody inner bodyWords body) :
      IsStatement inner (.keyword "while" :: conditionWords ++ bodyWords)
        (.whileLoop condition body)
  | forLoop {startWords conditionWords stepWords bodyWords : List Word}
      {start condition step : Expression} {body : List Statement}
      (first : inner.expression startWords start)
      (second : inner.expression conditionWords condition)
      (third : inner.expression stepWords step) (braced : IsBody inner bodyWords body) :
      IsStatement inner
        (.keyword "for" :: .symbol "(" :: startWords ++ .symbol "," :: conditionWords ++
          .symbol "," :: stepWords ++ .symbol ")" :: bodyWords)
        (.forLoop start condition step body)
  | foreachLoop {words bodyWords : List Word} {items : Expression} {body : List Statement}
      (item : String) (inside : inner.expression words items)
      (braced : IsBody inner bodyWords body) :
      IsStatement inner
        (.keyword "for" :: .symbol "(" :: .identifier item :: .symbol ":" :: words ++
          .symbol ")" :: bodyWords)
        (.foreachLoop item items body)
  | repeatLoop {countWords bodyWords : List Word} {count : Expression} {body : List Statement}
      (counted : IsCondition inner countWords count) (braced : IsBody inner bodyWords body) :
      IsStatement inner (.keyword "repeat" :: countWords ++ bodyWords) (.repeatLoop count body)
  | definition {words : List Word} {definition : Definition}
      (named : BeginsDefinition words) (defined : IsFunction inner words definition) :
      IsStatement inner words (.definition definition)
  | ret {words : List Word} {value : Expression} (returned : inner.expression words value) :
      IsStatement inner (.keyword "ret" :: words ++ [.symbol ";"]) (.ret value)
  | breakLoop : IsStatement inner [.keyword "break", .symbol ";"] .breakLoop
  | continueLoop : IsStatement inner [.keyword "continue", .symbol ";"] .continueLoop
  | expression {words : List Word} {tree : Expression} (evaluated : inner.expression words tree)
      (unnamed : ¬BeginsDefinition words) :
      IsStatement inner (words ++ [.symbol ";"]) (.expression tree)

theorem IsBody.words_ne_nil {inner : Phrases} {words : List Word} {trees : List Statement}
    (braced : IsBody inner words trees) : words ≠ [] := by
  cases braced
  simp

theorem IsStatement.words_ne_nil {inner : Phrases} {words : List Word} {tree : Statement}
    (statement : IsStatement inner words tree) : words ≠ [] := by
  cases statement with
  | block braced => exact braced.words_ne_nil
  | definition named defined =>
      obtain ⟨name, rest, rfl⟩ := named
      simp
  | _ => simp

def BeginsOperand (word : Word) : Prop :=
  word.kind = .number ∨ word.kind = .text ∨ word.kind = .identifier ∨
    (∃ operator : UnaryOperator, operator.isAfterOperand = false ∧
      word = .operator operator.spelling) ∨
    word = .symbol "(" ∨ word = .symbol "[" ∨ word = .keyword "def"

def statementWords : List Word :=
  [.symbol "\x7b", .symbol ";", .keyword "if", .keyword "while", .keyword "for",
    .keyword "repeat", .keyword "ret", .keyword "break", .keyword "continue"]

def BeginsStatement (word : Word) : Prop :=
  word ∈ statementWords ∨ BeginsOperand word

section Beginnings

variable {inner : Phrases} {words : List Word}

theorem Listed.begins {Tree : Type} {phrase : List Word → Tree → Prop} {opening closing : String}
    {trees : List Tree} (listed : Listed phrase opening closing words trees) :
    ∃ others, words = .symbol opening :: others := by
  cases listed with
  | empty => exact ⟨_, rfl⟩
  | items separated => exact ⟨_, rfl⟩

theorem IsFunction.begins {definition : Definition} (defined : IsFunction inner words definition) :
    ∃ others, words = .keyword "def" :: others := by
  cases defined with
  | named name listed braced => exact ⟨_, rfl⟩
  | unnamed listed braced => exact ⟨_, rfl⟩

theorem IsPrimary.begins {tree : Expression} (primary : IsPrimary inner words tree) :
    ∃ word others, words = word :: others ∧ BeginsOperand word := by
  cases primary with
  | parenthesised inside => exact ⟨_, _, rfl, by simp [BeginsOperand]⟩
  | number lexeme => exact ⟨_, _, rfl, .inl rfl⟩
  | text lexeme => exact ⟨_, _, rfl, .inr (.inl rfl)⟩
  | identifier name => exact ⟨_, _, rfl, .inr (.inr (.inl rfl))⟩
  | call name listed => exact ⟨_, _, rfl, .inr (.inr (.inl rfl))⟩
  | increment name after => exact ⟨_, _, rfl, .inr (.inr (.inl rfl))⟩
  | list listed =>
      obtain ⟨others, rfl⟩ := listed.begins
      exact ⟨_, _, rfl, by simp [BeginsOperand]⟩
  | function defined =>
      obtain ⟨others, rfl⟩ := defined.begins
      exact ⟨_, _, rfl, by simp [BeginsOperand]⟩

theorem IsTerm.begins {level : Precedence} {tree : Expression}
    (term : IsTerm inner level words tree) :
    ∃ word others, words = word :: others ∧ BeginsOperand word := by
  induction term with
  | primary operand => exact operand.begins
  | @unary operator _ _ before operand =>
      exact ⟨_, _, rfl, .inr (.inr (.inr (.inl ⟨operator, before, rfl⟩)))⟩
  | index container inside induction =>
      obtain ⟨word, others, rfl, begins⟩ := induction
      exact ⟨word, _, rfl, begins⟩
  | binary written first second induction =>
      obtain ⟨word, others, rfl, begins⟩ := induction
      exact ⟨word, _, rfl, begins⟩
  | tighter binary term induction => exact induction

theorem IsExpression.begins {tree : Expression} (expression : IsExpression inner words tree) :
    ∃ word others, words = word :: others ∧ BeginsOperand word := by
  cases expression with
  | assign operator name assigned => exact ⟨_, _, rfl, .inr (.inr (.inl rfl))⟩
  | term loosest => exact loosest.begins

def BeginsItem (words : List Word) : Prop :=
  ∃ name others, words = .identifier name :: .symbol ":" :: others

theorem BeginsItem.of_append {left others : List Word} {word : Word}
    (begins : BeginsItem (left ++ word :: others)) (nonempty : left ≠ [])
    (different : word ≠ .symbol ":") : BeginsItem left := by
  obtain ⟨name, following, same⟩ := begins
  match left with
  | [] => exact absurd rfl nonempty
  | [_] =>
      simp only [List.cons_append, List.nil_append, List.cons.injEq] at same
      exact absurd same.2.1 different
  | _ :: _ :: more =>
      simp only [List.cons_append, List.cons.injEq] at same
      rw [same.1, same.2.1]
      exact ⟨name, more, rfl⟩

theorem IsPrimary.not_beginsItem {tree : Expression} (primary : IsPrimary inner words tree) :
    ¬BeginsItem words := by
  intro begins
  obtain ⟨name, others, same⟩ := begins
  cases primary with
  | call name listed =>
      obtain ⟨following, rfl⟩ := listed.begins
      simp [Word.symbol] at same
  | list listed =>
      obtain ⟨following, rfl⟩ := listed.begins
      simp [Word.symbol, Word.identifier] at same
  | function defined =>
      obtain ⟨following, rfl⟩ := defined.begins
      simp [Word.keyword, Word.identifier] at same
  | _ => simp [Word.symbol, Word.identifier, Word.operator] at same

theorem IsTerm.not_beginsItem {level : Precedence} {tree : Expression}
    (term : IsTerm inner level words tree) : ¬BeginsItem words := by
  induction term with
  | primary operand => exact operand.not_beginsItem
  | unary before operand =>
      intro begins
      obtain ⟨name, others, same⟩ := begins
      simp [Word.identifier, Word.operator] at same
  | index container inside induction =>
      intro begins
      obtain ⟨word, others, rfl, -⟩ := container.begins
      rw [List.append_assoc, List.cons_append] at begins
      exact induction (begins.of_append (by simp) (by simp [Word.symbol]))
  | binary written first second induction =>
      intro begins
      obtain ⟨word, others, rfl, -⟩ := first.begins
      exact induction (begins.of_append (by simp) (by simp [Word.symbol, Word.operator]))
  | tighter binary term induction => exact induction

theorem IsExpression.not_beginsItem {tree : Expression}
    (expression : IsExpression inner words tree) : ¬BeginsItem words := by
  cases expression with
  | assign operator name assigned =>
      intro begins
      obtain ⟨item, others, same⟩ := begins
      simp [Word.symbol, Word.operator] at same
  | term loosest => exact loosest.not_beginsItem

theorem BeginsOperand.ne_symbol {word : Word} {lexeme : String} (begins : BeginsOperand word)
    (closed : lexeme ≠ "(" ∧ lexeme ≠ "[") : word ≠ .symbol lexeme := by
  intro same
  subst same
  simp [BeginsOperand, Word.symbol, Word.operator, Word.keyword, closed] at begins

theorem BeginsStatement.ne_brace {word : Word} (begins : BeginsStatement word) :
    word ≠ .symbol "\x7d" := by
  intro same
  subst same
  rcases begins with listed | operand
  · revert listed
    decide
  · exact operand.ne_symbol (by decide) rfl

theorem BeginsStatement.unbranched {word : Word} (begins : BeginsStatement word) :
    word ≠ .keyword "elif" ∧ word ≠ .keyword "else" := by
  constructor
  · intro same
    subst same
    simp [BeginsStatement, statementWords, BeginsOperand, Word.symbol, Word.keyword,
      Word.operator] at begins
  · intro same
    subst same
    simp [BeginsStatement, statementWords, BeginsOperand, Word.symbol, Word.keyword,
      Word.operator] at begins

theorem BeginsOperand.not_mem_statementWords {word : Word} (begins : BeginsOperand word) :
    word ∉ statementWords := by
  intro member
  simp only [statementWords, List.mem_cons, List.not_mem_nil, or_false] at member
  rcases member with rfl | rfl | rfl | rfl | rfl | rfl | rfl | rfl | rfl <;>
    simp [BeginsOperand, Word.symbol, Word.keyword, Word.operator] at begins

theorem IsStatement.begins {tree : Statement}
    (expressions : ∀ {words tree}, inner.expression words tree →
      ∃ word others, words = word :: others ∧ BeginsOperand word)
    (statement : IsStatement inner words tree) :
    ∃ word others, words = word :: others ∧ BeginsStatement word := by
  cases statement with
  | block braced =>
      cases braced
      exact ⟨_, _, rfl, .inl (by decide)⟩
  | definition named defined =>
      obtain ⟨name, others, rfl⟩ := named
      exact ⟨_, _, rfl, .inr (by simp [BeginsOperand])⟩
  | expression evaluated unnamed =>
      obtain ⟨word, others, rfl, begins⟩ := expressions evaluated
      exact ⟨word, _, rfl, .inr begins⟩
  | _ => exact ⟨_, _, rfl, .inl (by decide)⟩

end Beginnings

/-- The phrases that are nested at most `depth` levels deep, their own level counted. -/
def phrases : Nat → Phrases
  | 0 => ⟨fun _ _ => False, fun _ _ => False, fun _ _ _ => False⟩
  | depth + 1 =>
      ⟨IsStatement (phrases depth), IsExpression (phrases depth), IsTerm (phrases depth)⟩

/-- A program is a list of statements, none of them nested deeper than `depth` levels. -/
def IsProgram (depth : Nat) (words : List Word) (program : Program) : Prop :=
  Sequence (phrases depth).statement words program

end Grammar

end Easel
