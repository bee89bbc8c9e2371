import Easel.Proofs.Lexemes.Separation
import Easel.Proofs.Number.Notation
import Easel.Proofs.Printer.Written
import Easel.Syntax.Printer

/-!
The words of a printed tree. The printer is described once more, with words in place of texts,
and the lexer finds exactly these words in the printed text: no two of them run together.
-/

namespace Easel

namespace Word

def enclosed (opening closing : String) (words : List Word) : List Word :=
  .symbol opening :: words ++ [.symbol closing]

/-- With a comma between one phrase and the next. -/
def separated : List (List Word) → List Word
  | [] => []
  | [words] => words
  | words :: next :: rest => words ++ .symbol "," :: separated (next :: rest)

end Word

open Word (enclosed separated)

def Literal.spell : Literal → Word
  | .number value => ⟨.number, value.render⟩
  | .text quoted => ⟨.text, quoted⟩

mutual

def Expression.spell : Expression → List Word
  | .identifier name => [.identifier name]
  | .literal value => [value.spell]
  | .unary operator operand =>
      if operator.isAfterOperand then
        enclosed "(" ")" (operand.spell ++ [.operator operator.spelling])
      else enclosed "(" ")" (.operator operator.spelling :: operand.spell)
  | .binary .index left right => enclosed "(" ")" (left.spell ++ enclosed "[" "]" right.spell)
  | .binary operator left right =>
      enclosed "(" ")" (left.spell ++ .operator operator.spelling :: right.spell)
  | .assign operator name value => .identifier name :: .operator operator.spelling :: value.spell
  | .call name arguments =>
      .identifier name :: enclosed "(" ")" (separated (Expression.spellEach arguments))
  | .list items => enclosed "[" "]" (separated (Expression.spellEach items))
  | .function definition => definition.spell

def Expression.spellEach : List Expression → List (List Word)
  | [] => []
  | expression :: rest => expression.spell :: Expression.spellEach rest

def Statement.spell : Statement → List Word
  | .block body => enclosed "\x7b" "\x7d" (Statement.spellEach body)
  | .conditional condition body alternatives =>
      .keyword "if" :: enclosed "(" ")" condition.spell ++
        enclosed "\x7b" "\x7d" (Statement.spellEach body) ++ alternatives.spell
  | .whileLoop condition body =>
      .keyword "while" :: enclosed "(" ")" condition.spell ++
        enclosed "\x7b" "\x7d" (Statement.spellEach body)
  | .forLoop start condition step body =>
      .keyword "for" :: enclosed "(" ")" (separated [start.spell, condition.spell, step.spell]) ++
        enclosed "\x7b" "\x7d" (Statement.spellEach body)
  | .foreachLoop item items body =>
      .keyword "for" :: enclosed "(" ")" (.identifier item :: .symbol ":" :: items.spell) ++
        enclosed "\x7b" "\x7d" (Statement.spellEach body)
  | .repeatLoop count body =>
      .keyword "repeat" :: enclosed "(" ")" count.spell ++
        enclosed "\x7b" "\x7d" (Statement.spellEach body)
  | .definition definition => definition.spell
  | .ret value => .keyword "ret" :: value.spell ++ [.symbol ";"]
  | .breakLoop => [.keyword "break", .symbol ";"]
  | .continueLoop => [.keyword "continue", .symbol ";"]
  | .expression expression => expression.spell ++ [.symbol ";"]
  | .empty => [.symbol ";"]

def Statement.spellEach : List Statement → List Word
  | [] => []
  | statement :: rest => statement.spell ++ Statement.spellEach rest

def Alternatives.spell : Alternatives → List Word
  | .none => []
  | .otherwise body => .keyword "else" :: enclosed "\x7b" "\x7d" (Statement.spellEach body)
  | .branch condition body rest =>
      .keyword "elif" :: enclosed "(" ")" condition.spell ++
        enclosed "\x7b" "\x7d" (Statement.spellEach body) ++ rest.spell

def Definition.spell : Definition → List Word
  | .mk name parameters body =>
      .keyword "def" :: (name.map Word.identifier).toList ++
        enclosed "(" ")" (separated (parameters.map fun parameter => [.identifier parameter])) ++
          enclosed "\x7b" "\x7d" (Statement.spellEach body)

end

attribute [simp] Expression.render Expression.renderEach Statement.render Statement.renderEach
  Alternatives.render Definition.render Expression.spell Expression.spellEach Statement.spell
  Statement.spellEach Alternatives.spell Definition.spell

def Expression.isAssign : Expression → Bool
  | .assign _ _ _ => true
  | _ => false

/-- A number that is printed without a point. -/
def Expression.isPointless : Expression → Bool
  | .literal (.number value) => !value.render.toList.contains '.'
  | _ => false

/-- The printer writes no parentheses around an assignment and no point that a number does not
need, and infinity has no numeral. -/
def Expression.IsReprintable : Expression → Prop
  | .literal (.number value) => ∀ negative, value.parts ≠ .infinite negative
  | .unary _ operand => operand.isAssign = false
  | .binary operator left right =>
      left.isAssign = false ∧ (operator ≠ .index → right.isAssign = false) ∧
        (operator = .member → left.isPointless = false)
  | _ => True

/-- At the beginning of a statement a function literal with a name is read as a definition. -/
def Statement.IsReprintable : Statement → Prop
  | .expression (.function function) => function.name = none
  | _ => True

def reprintable : Trait := ⟨Expression.IsReprintable, Statement.IsReprintable⟩

instance : DecidablePred reprintable.onExpression
  | .literal (.number value) =>
      inferInstanceAs (Decidable (∀ negative, value.parts ≠ .infinite negative))
  | .unary _ operand => inferInstanceAs (Decidable (operand.isAssign = false))
  | .binary operator left right =>
      inferInstanceAs (Decidable (left.isAssign = false ∧
        (operator ≠ .index → right.isAssign = false) ∧
          (operator = .member → left.isPointless = false)))
  | .identifier _ | .literal (.text _) | .assign _ _ _ | .call _ _ | .list _ | .function _ =>
      isTrue trivial

instance : DecidablePred reprintable.onStatement
  | .expression (.function function) => inferInstanceAs (Decidable (function.name = none))
  | .expression (.identifier _) | .expression (.literal _) | .expression (.unary _ _)
  | .expression (.binary _ _ _) | .expression (.assign _ _ _) | .expression (.call _ _)
  | .expression (.list _) | .block _ | .conditional _ _ _ | .whileLoop _ _ | .forLoop _ _ _ _
  | .foreachLoop _ _ _ | .repeatLoop _ _ | .definition _ | .ret _ | .breakLoop | .continueLoop
  | .empty => isTrue trivial

/-- A point behind the expression is not read as a part of a number in front of it. -/
def Expression.TakesPoint : Expression → Prop
  | .literal (.number value) => '.' ∈ value.render.toList
  | .assign _ _ _ => False
  | _ => True

/-- The printed expression is read as its words, if what follows does not run into it. -/
def Expression.Spelled (tree : Expression) : Prop :=
  ∀ rest : List Char,
    (∀ c ∈ rest.head?, Token.isLetter c = false ∧ c.isDigit = false ∧
      (c = '.' → tree.TakesPoint)) →
        Token.words (tree.render.toList ++ rest) = tree.spell ++ Token.words rest

/-- A printed statement ends by itself. -/
def Statement.Spelled (tree : Statement) : Prop :=
  ∀ rest : List Char, Token.words (tree.render.toList ++ rest) = tree.spell ++ Token.words rest

def Alternatives.Spelled (tree : Alternatives) : Prop :=
  ∀ rest : List Char, Token.words (tree.render.toList ++ rest) = tree.spell ++ Token.words rest

def Definition.Spelled (tree : Definition) : Prop :=
  ∀ rest : List Char, Token.words (tree.render.toList ++ rest) = tree.spell ++ Token.words rest

/-- The characters that end whatever expression they follow. -/
def closes (c : Char) : Bool :=
  !Token.isLetter c && !c.isDigit && c != '.'

theorem Expression.Spelled.before {tree : Expression} (spelled : tree.Spelled) {c : Char}
    (closing : closes c = true) (rest : List Char) :
    Token.words (tree.render.toList ++ c :: rest) = tree.spell ++ Token.words (c :: rest) := by
  simp only [closes, Bool.and_eq_true, Bool.not_eq_true', bne_iff_ne] at closing
  apply spelled
  intro d same
  cases same
  exact ⟨closing.1.1, closing.1.2, fun point => absurd point closing.2⟩

theorem apart_cons {p : Char → Bool} {c : Char} {rest : List Char} (apart : p c = false) :
    ∀ d ∈ (c :: rest).head?, p d = false := by
  intro d same
  cases same
  exact apart

/-- The characters with which a printed expression begins. -/
def beginsOperand (c : Char) : Bool :=
  Token.isLetter c || c.isDigit || ['"', '(', '['].contains c

theorem unpaired_of_beginsOperand {c : Char} (begun : beginsOperand c = true) :
    ∀ pair ∈ Token.operatorPairs, pair.2 ≠ c := by
  have all : ∀ pair ∈ Token.operatorPairs, beginsOperand pair.2 = false := by decide
  intro pair member same
  rw [← same, all pair member] at begun
  cases begun

section Operators

open Token

variable {rest : List Char}

theorem words_assignOperator (operator : AssignOperator) :
    words (operator.spelling.toList ++ ' ' :: rest) =
      .operator operator.spelling :: words (' ' :: rest) := by
  cases operator with
  | assign => exact words_operator rfl (apart_cons rfl)
  | _ => exact words_pair rfl

theorem words_binaryOperator {operator : BinaryOperator} (infixed : operator ≠ .index) :
    words (operator.spelling.toList ++ ' ' :: rest) =
      .operator operator.spelling :: words (' ' :: rest) := by
  cases operator with
  | index => exact absurd rfl infixed
  | and | or | equal | notEqual | greaterEqual | lessEqual => exact words_pair rfl
  | _ => exact words_operator rfl (apart_cons rfl)

/-- An operator in front of an operand does not run into it, if the operand begins like one. -/
theorem words_operatorBefore {operator : UnaryOperator} (before : operator.isAfterOperand = false)
    (alone : ∀ second ∈ rest.head?, ∀ pair ∈ operatorPairs, pair.2 ≠ second) :
    words (operator.spelling.toList ++ rest) = .operator operator.spelling :: words rest := by
  have unpaired := fun c second (member : second ∈ rest.head?) =>
    contains_eq_false_of_second (alone second member) c
  cases operator with
  | not => exact words_operator rfl (unpaired '!')
  | negate => exact words_operator rfl (unpaired '-')
  | preIncrement | preDecrement => exact words_pair rfl
  | postIncrement | postDecrement => cases before

theorem words_operatorAfter {operator : UnaryOperator} (after : operator.isAfterOperand = true) :
    words (operator.spelling.toList ++ rest) = .operator operator.spelling :: words rest := by
  cases operator with
  | postIncrement | postDecrement => exact words_pair rfl
  | _ => cases after

end Operators

section Expressions

open Token

variable {rest : List Char}

theorem spelled_identifier {name : String} (named : IsName name) :
    (Expression.identifier name).Spelled := by
  intro rest apart
  exact words_name named fun c member => (apart c member).1

theorem spelled_text {quoted : String} (shape : HasShape .text quoted.toList) :
    (Expression.literal (.text quoted)).Spelled :=
  fun _ _ => words_text shape

theorem spelled_number {value : Number} (numeral : IsNumeral value.render.toList) :
    (Expression.literal (.number value)).Spelled := by
  intro rest apart
  exact words_number numeral fun c member => (apart c member).2

theorem spelled_increment {operator : UnaryOperator} {name : String} (named : IsName name)
    (after : operator.isAfterOperand = true) :
    (Expression.unary operator (.identifier name)).Spelled := by
  intro rest _
  have text : (Expression.unary operator (.identifier name)).render.toList ++ rest =
      '(' :: (name.toList ++ (operator.spelling.toList ++ ')' :: rest)) := by
    simp [after]
  have apart : ∀ c ∈ (operator.spelling.toList ++ ')' :: rest).head?, isLetter c = false := by
    cases operator with
    | postIncrement | postDecrement => exact apart_cons rfl
    | _ => cases after
  rw [text, words_symbol rfl, words_name named apart, words_operatorAfter after, words_symbol rfl]
  simp [enclosed, after]

theorem spelled_unary {operator : UnaryOperator} {operand : Expression}
    (before : operator.isAfterOperand = false) (spelled : operand.Spelled)
    (begins : ∃ c following, operand.render.toList = c :: following ∧ beginsOperand c = true) :
    (Expression.unary operator operand).Spelled := by
  intro rest _
  have text : (Expression.unary operator operand).render.toList ++ rest =
      '(' :: (operator.spelling.toList ++ (operand.render.toList ++ ')' :: rest)) := by
    simp [before]
  have alone : ∀ second ∈ (operand.render.toList ++ ')' :: rest).head?,
      ∀ pair ∈ operatorPairs, pair.2 ≠ second := by
    obtain ⟨c, following, first, begun⟩ := begins
    intro second same
    rw [first] at same
    cases same
    exact unpaired_of_beginsOperand begun
  rw [text, words_symbol rfl, words_operatorBefore before alone, spelled.before rfl,
    words_symbol rfl]
  simp [enclosed, before]

theorem spelled_index {left right : Expression} (leftSpelled : left.Spelled)
    (rightSpelled : right.Spelled) : (Expression.binary .index left right).Spelled := by
  intro rest _
  have text : (Expression.binary .index left right).render.toList ++ rest =
      '(' :: (left.render.toList ++ '[' :: (right.render.toList ++ ']' :: ')' :: rest)) := by
    simp
  rw [text, words_symbol rfl, leftSpelled.before rfl, words_symbol rfl, rightSpelled.before rfl,
    words_symbol rfl, words_symbol rfl]
  simp [enclosed]

/-- The point is written without blanks around it. -/
theorem spelled_member {left right : Expression} (leftSpelled : left.Spelled)
    (rightSpelled : right.Spelled) (point : left.TakesPoint) :
    (Expression.binary .member left right).Spelled := by
  intro rest _
  have text : (Expression.binary .member left right).render.toList ++ rest =
      '(' :: (left.render.toList ++ '.' :: (right.render.toList ++ ')' :: rest)) := by
    simp
  have pointed := leftSpelled ('.' :: (right.render.toList ++ ')' :: rest))
    (by
      intro c same
      cases same
      exact ⟨rfl, rfl, fun _ => point⟩)
  have single : words ('.' :: (right.render.toList ++ ')' :: rest)) =
      .operator "." :: words (right.render.toList ++ ')' :: rest) := by
    apply words_operator rfl
    exact fun second _ => contains_eq_false_of_first (by decide) second
  rw [text, words_symbol rfl, pointed, single, rightSpelled.before rfl, words_symbol rfl]
  simp [enclosed, BinaryOperator.spelling]

theorem spelled_binary {operator : BinaryOperator} {left right : Expression}
    (infixed : operator ≠ .index ∧ operator ≠ .member) (leftSpelled : left.Spelled)
    (rightSpelled : right.Spelled) : (Expression.binary operator left right).Spelled := by
  intro rest _
  have text : (Expression.binary operator left right).render.toList ++ rest =
      '(' :: (left.render.toList ++ ' ' :: (operator.spelling.toList ++
        ' ' :: (right.render.toList ++ ')' :: rest))) := by
    cases operator <;> simp_all
  have spelling : (Expression.binary operator left right).spell =
      enclosed "(" ")" (left.spell ++ .operator operator.spelling :: right.spell) := by
    cases operator <;> simp_all
  rw [text, words_symbol rfl, leftSpelled.before rfl, words_blank rfl,
    words_binaryOperator infixed.1, words_blank rfl, rightSpelled.before rfl, words_symbol rfl,
    spelling]
  simp [enclosed]

theorem spelled_assign {operator : AssignOperator} {name : String} {value : Expression}
    (named : IsName name) (spelled : value.Spelled) :
    (Expression.assign operator name value).Spelled := by
  intro rest apart
  have text : (Expression.assign operator name value).render.toList ++ rest =
      name.toList ++ ' ' :: (operator.spelling.toList ++ ' ' :: (value.render.toList ++ rest)) := by
    simp
  have closed := spelled rest fun c member =>
    ⟨(apart c member).1, (apart c member).2.1, fun point => ((apart c member).2.2 point).elim⟩
  rw [text, words_name named (apart_cons rfl), words_blank rfl, words_assignOperator,
    words_blank rfl, closed]
  simp

theorem words_separated {trees : List Expression} (each : ∀ tree ∈ trees, tree.Spelled) {c : Char}
    (closing : closes c = true) (rest : List Char) :
    words ((", ".intercalate (Expression.renderEach trees)).toList ++ c :: rest) =
      separated (Expression.spellEach trees) ++ words (c :: rest) := by
  induction trees with
  | nil => rfl
  | cons tree trees induction =>
      have head := each tree List.mem_cons_self
      cases trees with
      | nil => simpa [separated] using head.before closing rest
      | cons next trees =>
          have tail := induction fun other member => each other (List.mem_cons_of_mem tree member)
          have text : (", ".intercalate (Expression.renderEach (tree :: next :: trees))).toList ++
              c :: rest = tree.render.toList ++ ',' :: ' ' ::
                ((", ".intercalate (Expression.renderEach (next :: trees))).toList ++ c :: rest) := by
            simp only [Expression.renderEach, String.intercalate_cons_cons, String.toList_append,
              List.append_assoc]
            rfl
          rw [text, head.before rfl, words_symbol rfl, words_blank rfl, tail]
          simp [separated]

theorem spelled_call {name : String} {arguments : List Expression} (named : IsName name)
    (each : ∀ argument ∈ arguments, argument.Spelled) :
    (Expression.call name arguments).Spelled := by
  intro rest _
  have text : (Expression.call name arguments).render.toList ++ rest =
      name.toList ++ '(' :: ((", ".intercalate (Expression.renderEach arguments)).toList ++
        ')' :: rest) := by
    simp
  rw [text, words_name named (apart_cons rfl), words_symbol rfl, words_separated each rfl,
    words_symbol rfl]
  simp [enclosed]

theorem spelled_list {items : List Expression} (each : ∀ item ∈ items, item.Spelled) :
    (Expression.list items).Spelled := by
  intro rest _
  have text : (Expression.list items).render.toList ++ rest =
      '[' :: ((", ".intercalate (Expression.renderEach items)).toList ++ ']' :: rest) := by
    simp
  rw [text, words_symbol rfl, words_separated each rfl, words_symbol rfl]
  simp [enclosed]

end Expressions

section Statements

open Token

variable {rest : List Char}

theorem words_join {trees : List Statement} (each : ∀ tree ∈ trees, tree.Spelled)
    (rest : List Char) :
    words ((String.join ((Statement.renderEach trees).map (· ++ " "))).toList ++ rest) =
      Statement.spellEach trees ++ words rest := by
  induction trees with
  | nil => rfl
  | cons tree trees induction =>
      have head := each tree List.mem_cons_self
      have tail := induction fun other member => each other (List.mem_cons_of_mem tree member)
      have text : (String.join ((Statement.renderEach (tree :: trees)).map (· ++ " "))).toList ++
          rest = tree.render.toList ++
            ' ' :: ((String.join ((Statement.renderEach trees).map (· ++ " "))).toList ++ rest) := by
        simp
      rw [text, head, words_blank rfl, tail]
      simp

theorem words_braced {trees : List Statement} (each : ∀ tree ∈ trees, tree.Spelled)
    (rest : List Char) :
    words ((braced (Statement.renderEach trees)).toList ++ rest) =
      enclosed "\x7b" "\x7d" (Statement.spellEach trees) ++ words rest := by
  have text : (braced (Statement.renderEach trees)).toList ++ rest =
      '{' :: ' ' :: ((String.join ((Statement.renderEach trees).map (· ++ " "))).toList ++
        '}' :: rest) := by
    simp [braced]
  rw [text, words_symbol rfl, words_blank rfl, words_join each, words_symbol rfl]
  simp [enclosed]

/-- A keyword with an expression in parentheses and a blank behind it. -/
theorem words_header {lexeme : String} (reserved : lexeme ∈ keywords) {condition : Expression}
    (spelled : condition.Spelled) (rest : List Char) :
    words (lexeme.toList ++ ' ' :: '(' :: (condition.render.toList ++ ')' :: ' ' :: rest)) =
      .keyword lexeme :: enclosed "(" ")" condition.spell ++ words rest := by
  rw [words_keyword reserved (apart_cons rfl), words_blank rfl, words_symbol rfl,
    spelled.before rfl, words_symbol rfl, words_blank rfl]
  simp [enclosed]

theorem spelled_block {body : List Statement} (each : ∀ tree ∈ body, tree.Spelled) :
    (Statement.block body).Spelled := by
  intro rest
  rw [Statement.render, words_braced each, Statement.spell]

theorem spelled_conditional {condition : Expression} {body : List Statement}
    {alternatives : Alternatives} (tested : condition.Spelled)
    (each : ∀ tree ∈ body, tree.Spelled) (others : alternatives.Spelled) :
    (Statement.conditional condition body alternatives).Spelled := by
  intro rest
  have text : (Statement.conditional condition body alternatives).render.toList ++ rest =
      "if".toList ++ ' ' :: '(' :: (condition.render.toList ++ ')' :: ' ' ::
        ((braced (Statement.renderEach body)).toList ++ (alternatives.render.toList ++ rest))) := by
    simp
  rw [text, words_header (by decide) tested, words_braced each, others]
  simp

theorem spelled_whileLoop {condition : Expression} {body : List Statement}
    (tested : condition.Spelled) (each : ∀ tree ∈ body, tree.Spelled) :
    (Statement.whileLoop condition body).Spelled := by
  intro rest
  have text : (Statement.whileLoop condition body).render.toList ++ rest =
      "while".toList ++ ' ' :: '(' :: (condition.render.toList ++ ')' :: ' ' ::
        ((braced (Statement.renderEach body)).toList ++ rest)) := by
    simp
  rw [text, words_header (by decide) tested, words_braced each]
  simp

theorem spelled_repeatLoop {count : Expression} {body : List Statement}
    (counted : count.Spelled) (each : ∀ tree ∈ body, tree.Spelled) :
    (Statement.repeatLoop count body).Spelled := by
  intro rest
  have text : (Statement.repeatLoop count body).render.toList ++ rest =
      "repeat".toList ++ ' ' :: '(' :: (count.render.toList ++ ')' :: ' ' ::
        ((braced (Statement.renderEach body)).toList ++ rest)) := by
    simp
  rw [text, words_header (by decide) counted, words_braced each]
  simp

theorem spelled_forLoop {start condition step : Expression} {body : List Statement}
    (first : start.Spelled) (second : condition.Spelled) (third : step.Spelled)
    (each : ∀ tree ∈ body, tree.Spelled) :
    (Statement.forLoop start condition step body).Spelled := by
  intro rest
  have text : (Statement.forLoop start condition step body).render.toList ++ rest =
      "for".toList ++ ' ' :: '(' :: (start.render.toList ++ ',' :: ' ' ::
        (condition.render.toList ++ ',' :: ' ' :: (step.render.toList ++ ')' :: ' ' ::
          ((braced (Statement.renderEach body)).toList ++ rest)))) := by
    simp
  rw [text, words_keyword (by decide) (apart_cons rfl), words_blank rfl, words_symbol rfl,
    first.before rfl, words_symbol rfl, words_blank rfl, second.before rfl, words_symbol rfl,
    words_blank rfl, third.before rfl, words_symbol rfl, words_blank rfl, words_braced each]
  simp [enclosed, separated]

theorem spelled_foreachLoop {item : String} {items : Expression} {body : List Statement}
    (named : IsName item) (inside : items.Spelled) (each : ∀ tree ∈ body, tree.Spelled) :
    (Statement.foreachLoop item items body).Spelled := by
  intro rest
  have text : (Statement.foreachLoop item items body).render.toList ++ rest =
      "for".toList ++ ' ' :: '(' :: (item.toList ++ ' ' :: ':' :: ' ' ::
        (items.render.toList ++ ')' :: ' ' ::
          ((braced (Statement.renderEach body)).toList ++ rest))) := by
    simp
  rw [text, words_keyword (by decide) (apart_cons rfl), words_blank rfl, words_symbol rfl,
    words_name named (apart_cons rfl), words_blank rfl, words_symbol rfl, words_blank rfl,
    inside.before rfl, words_symbol rfl, words_blank rfl, words_braced each]
  simp [enclosed]

theorem spelled_ret {value : Expression} (spelled : value.Spelled) :
    (Statement.ret value).Spelled := by
  intro rest
  have text : (Statement.ret value).render.toList ++ rest =
      "ret".toList ++ ' ' :: (value.render.toList ++ ';' :: rest) := by
    simp
  rw [text, words_keyword (by decide) (apart_cons rfl), words_blank rfl, spelled.before rfl,
    words_symbol rfl]
  simp

theorem spelled_breakLoop : Statement.breakLoop.Spelled := by
  intro rest
  have text : Statement.breakLoop.render.toList ++ rest = "break".toList ++ ';' :: rest := by
    simp
  rw [text, words_keyword (by decide) (apart_cons rfl), words_symbol rfl]
  simp

theorem spelled_continueLoop : Statement.continueLoop.Spelled := by
  intro rest
  have text : Statement.continueLoop.render.toList ++ rest = "continue".toList ++ ';' :: rest := by
    simp
  rw [text, words_keyword (by decide) (apart_cons rfl), words_symbol rfl]
  simp

theorem spelled_expression {expression : Expression} (spelled : expression.Spelled) :
    (Statement.expression expression).Spelled := by
  intro rest
  have text : (Statement.expression expression).render.toList ++ rest =
      expression.render.toList ++ ';' :: rest := by
    simp
  rw [text, spelled.before rfl, words_symbol rfl]
  simp

theorem spelled_empty : Statement.empty.Spelled :=
  fun _ => words_symbol rfl

theorem spelled_otherwise {body : List Statement} (each : ∀ tree ∈ body, tree.Spelled) :
    (Alternatives.otherwise body).Spelled := by
  intro rest
  have text : (Alternatives.otherwise body).render.toList ++ rest =
      ' ' :: ("else".toList ++ ' ' :: ((braced (Statement.renderEach body)).toList ++ rest)) := by
    simp
  rw [text, words_blank rfl, words_keyword (by decide) (apart_cons rfl), words_blank rfl,
    words_braced each]
  simp

theorem spelled_branch {condition : Expression} {body : List Statement} {others : Alternatives}
    (tested : condition.Spelled) (each : ∀ tree ∈ body, tree.Spelled) (spelled : others.Spelled) :
    (Alternatives.branch condition body others).Spelled := by
  intro rest
  have text : (Alternatives.branch condition body others).render.toList ++ rest =
      ' ' :: ("elif".toList ++ ' ' :: '(' :: (condition.render.toList ++ ')' :: ' ' ::
        ((braced (Statement.renderEach body)).toList ++ (others.render.toList ++ rest)))) := by
    simp
  rw [text, words_blank rfl, words_header (by decide) tested, words_braced each, spelled]
  simp

theorem words_parameters {parameters : List String} (names : ∀ name ∈ parameters, IsName name)
    (rest : List Char) :
    words ((", ".intercalate parameters).toList ++ ')' :: rest) =
      separated (parameters.map fun name => [.identifier name]) ++ words (')' :: rest) := by
  have rendered : Expression.renderEach (parameters.map .identifier) = parameters := by
    clear names
    induction parameters with
    | nil => rfl
    | cons name parameters induction => simp [induction]
  have spelled : Expression.spellEach (parameters.map .identifier) =
      parameters.map fun name => [.identifier name] := by
    clear names rendered
    induction parameters with
    | nil => rfl
    | cons name parameters induction => simp [induction]
  have each : ∀ tree ∈ parameters.map Expression.identifier, tree.Spelled := by
    intro tree member
    obtain ⟨name, listed, rfl⟩ := List.mem_map.mp member
    exact spelled_identifier (names name listed)
  have separate := words_separated each (c := ')') rfl rest
  rwa [rendered, spelled] at separate

theorem spelled_definition {name : Option String} {parameters : List String}
    {body : List Statement} (names : (Definition.mk name parameters body).IsWritten)
    (each : ∀ tree ∈ body, tree.Spelled) : (Definition.mk name parameters body).Spelled := by
  intro rest
  have parameterNames : ∀ name ∈ parameters, IsName name := names.2
  have tail : words ('(' :: ((", ".intercalate parameters).toList ++ ')' :: ' ' ::
      ((braced (Statement.renderEach body)).toList ++ rest))) =
        enclosed "(" ")" (separated (parameters.map fun name => [.identifier name])) ++
          (enclosed "\x7b" "\x7d" (Statement.spellEach body) ++ words rest) := by
    rw [words_symbol rfl, words_parameters parameterNames, words_symbol rfl, words_blank rfl,
      words_braced each]
    simp [enclosed]
  cases name with
  | none =>
      have text : (Definition.mk none parameters body).render.toList ++ rest =
          "def".toList ++ ' ' :: '(' :: ((", ".intercalate parameters).toList ++ ')' :: ' ' ::
            ((braced (Statement.renderEach body)).toList ++ rest)) := by
        simp
      rw [text, words_keyword (by decide) (apart_cons rfl), words_blank rfl, tail]
      simp
  | some name =>
      have text : (Definition.mk (some name) parameters body).render.toList ++ rest =
          "def".toList ++ ' ' :: (name.toList ++ '(' :: ((", ".intercalate parameters).toList ++
            ')' :: ' ' :: ((braced (Statement.renderEach body)).toList ++ rest))) := by
        simp
      rw [text, words_keyword (by decide) (apart_cons rfl), words_blank rfl,
        words_name (names.1 name rfl) (apart_cons rfl), tail]
      simp

end Statements

section Trees

theorem exists_finite_magnitude {value : Number} (isWritten : (Literal.number value).IsWritten)
    (isFinite : ∀ negative, value.parts ≠ .infinite negative) :
    ∃ magnitude < Number.infinityBits, value = Number.ofMagnitude false magnitude := by
  obtain ⟨magnitude, bound, rfl⟩ := isWritten
  refine ⟨magnitude, Nat.lt_of_le_of_ne bound ?_, rfl⟩
  intro same
  subst same
  exact isFinite false Number.parts_infinity

theorem IsName.begins {name : String} (named : IsName name) :
    ∃ c following, name.toList = c :: following ∧ Token.isLetter c = true := by
  obtain ⟨some, all, -⟩ := named
  obtain ⟨c, following, first⟩ := List.exists_cons_of_ne_nil some
  exact ⟨c, following, first, all c (by rw [first]; exact List.mem_cons_self)⟩

theorem Expression.render_begins {tree : Expression} (isWritten : tree.Every written)
    (isReprintable : tree.Every reprintable) :
    ∃ c following, tree.render.toList = c :: following ∧
      beginsOperand c = true := by
  have name : ∀ {name : String} (rest : String), IsName name →
      ∃ c following, (name ++ rest).toList = c :: following ∧
        beginsOperand c = true := by
    intro name rest named
    obtain ⟨c, following, first, letter⟩ := named.begins
    exact ⟨c, following ++ rest.toList, by simp [first], by simp [beginsOperand, letter]⟩
  have symbol : ∀ {c : Char} (rest : String), beginsOperand c = true →
      ∃ d following, (String.ofList [c] ++ rest).toList = d :: following ∧
        beginsOperand d = true := by
    intro c rest begun
    exact ⟨c, rest.toList, by simp, begun⟩
  cases tree with
  | identifier _ => simpa using name "" isWritten
  | literal value =>
      cases value with
      | number value =>
          obtain ⟨magnitude, isFinite, rfl⟩ := exists_finite_magnitude isWritten isReprintable
          obtain ⟨c, following, first, digit⟩ := (Number.isNumeral_render isFinite).begins
          exact ⟨c, following, first, by simp [beginsOperand, digit]⟩
      | text quoted =>
          obtain ⟨content, -, spelled⟩ := isWritten
          exact ⟨'"', content ++ ['"'], spelled, rfl⟩
  | unary operator operand =>
      unfold Expression.render
      split <;> simp only [String.append_assoc] <;> exact symbol _ rfl
  | binary operator left right =>
      cases operator <;> simp only [Expression.render, String.append_assoc] <;>
        exact symbol _ rfl
  | assign operator _ value =>
      simp only [Expression.render, String.append_assoc]
      exact name _ isWritten.1
  | call _ arguments =>
      simp only [Expression.render, String.append_assoc]
      exact name _ isWritten.1
  | list items =>
      simp only [Expression.render, String.append_assoc]
      exact symbol _ rfl
  | function definition =>
      obtain ⟨_, parameters, body⟩ := definition
      simp only [Expression.render, Definition.render, String.append_assoc]
      exact ⟨'d', 'e' :: 'f' :: ' ' :: _, String.toList_append, rfl⟩

theorem Expression.takesPoint_of_reprintable {left right : Expression}
    (isReprintable : (Expression.binary .member left right).IsReprintable) : left.TakesPoint := by
  obtain ⟨unassigned, -, pointed⟩ := isReprintable
  cases left with
  | literal value =>
      cases value with
      | number value => simpa [Expression.isPointless, Expression.TakesPoint] using pointed rfl
      | text quoted => trivial
  | assign operator name value => cases unassigned
  | _ => trivial

mutual

theorem Expression.spelled (tree : Expression) (isWritten : tree.Every written)
    (isReprintable : tree.Every reprintable) : tree.Spelled := by
  cases tree with
  | identifier name => exact spelled_identifier isWritten
  | literal value =>
      cases value with
      | number value =>
          obtain ⟨magnitude, isFinite, rfl⟩ := exists_finite_magnitude isWritten isReprintable
          exact spelled_number (Number.isNumeral_render isFinite)
      | text quoted => exact spelled_text isWritten
  | unary operator operand =>
      cases after : operator.isAfterOperand with
      | true =>
          obtain ⟨name, rfl⟩ := isWritten.1 after
          exact spelled_increment isWritten.2 after
      | false =>
          exact spelled_unary after (operand.spelled isWritten.2 isReprintable.2)
            (Expression.render_begins isWritten.2 isReprintable.2)
  | binary operator left right =>
      have leftSpelled := left.spelled isWritten.2.1 isReprintable.2.1
      have rightSpelled := right.spelled isWritten.2.2 isReprintable.2.2
      by_cases index : operator = .index
      · subst index
        exact spelled_index leftSpelled rightSpelled
      · by_cases member : operator = .member
        · subst member
          exact spelled_member leftSpelled rightSpelled
            (Expression.takesPoint_of_reprintable isReprintable.1)
        · exact spelled_binary ⟨index, member⟩ leftSpelled rightSpelled
  | assign operator name value =>
      exact spelled_assign isWritten.1 (value.spelled isWritten.2 isReprintable.2)
  | call name arguments =>
      exact spelled_call isWritten.1
        (Expression.spelled_each arguments isWritten.2 isReprintable.2)
  | list items =>
      exact spelled_list (Expression.spelled_each items isWritten.2 isReprintable.2)
  | function definition =>
      have spelled := definition.spelled isWritten.1 isWritten.2 isReprintable.2
      intro rest _
      rw [Expression.render, Expression.spell, spelled]

theorem Expression.spelled_each (trees : List Expression)
    (areWritten : Expression.EveryEach written trees)
    (areReprintable : Expression.EveryEach reprintable trees) :
    ∀ tree ∈ trees, tree.Spelled := by
  cases trees with
  | nil =>
      intro tree member
      cases member
  | cons head tail =>
      exact List.forall_mem_cons.mpr ⟨head.spelled areWritten.1 areReprintable.1,
        Expression.spelled_each tail areWritten.2 areReprintable.2⟩

theorem Statement.spelled (tree : Statement) (isWritten : tree.Every written)
    (isReprintable : tree.Every reprintable) : tree.Spelled := by
  cases tree with
  | block body => exact spelled_block (Statement.spelled_each body isWritten.2 isReprintable.2)
  | conditional condition body alternatives =>
      exact spelled_conditional (condition.spelled isWritten.2.1 isReprintable.2.1)
        (Statement.spelled_each body isWritten.2.2.1 isReprintable.2.2.1)
        (alternatives.spelled isWritten.2.2.2 isReprintable.2.2.2)
  | whileLoop condition body =>
      exact spelled_whileLoop (condition.spelled isWritten.2.1 isReprintable.2.1)
        (Statement.spelled_each body isWritten.2.2 isReprintable.2.2)
  | forLoop start condition step body =>
      exact spelled_forLoop (start.spelled isWritten.2.1 isReprintable.2.1)
        (condition.spelled isWritten.2.2.1 isReprintable.2.2.1)
        (step.spelled isWritten.2.2.2.1 isReprintable.2.2.2.1)
        (Statement.spelled_each body isWritten.2.2.2.2 isReprintable.2.2.2.2)
  | foreachLoop item items body =>
      exact spelled_foreachLoop isWritten.1 (items.spelled isWritten.2.1 isReprintable.2.1)
        (Statement.spelled_each body isWritten.2.2 isReprintable.2.2)
  | repeatLoop count body =>
      exact spelled_repeatLoop (count.spelled isWritten.2.1 isReprintable.2.1)
        (Statement.spelled_each body isWritten.2.2 isReprintable.2.2)
  | definition function =>
      have spelled := function.spelled isWritten.1.2 isWritten.2 isReprintable.2
      intro rest
      rw [Statement.render, Statement.spell, spelled]
  | ret value => exact spelled_ret (value.spelled isWritten.2 isReprintable.2)
  | breakLoop => exact spelled_breakLoop
  | continueLoop => exact spelled_continueLoop
  | expression tree => exact spelled_expression (tree.spelled isWritten.2 isReprintable.2)
  | empty => exact spelled_empty

theorem Statement.spelled_each (trees : List Statement)
    (areWritten : Statement.EveryEach written trees)
    (areReprintable : Statement.EveryEach reprintable trees) :
    ∀ tree ∈ trees, tree.Spelled := by
  cases trees with
  | nil =>
      intro tree member
      cases member
  | cons head tail =>
      exact List.forall_mem_cons.mpr ⟨head.spelled areWritten.1 areReprintable.1,
        Statement.spelled_each tail areWritten.2 areReprintable.2⟩

theorem Alternatives.spelled (tree : Alternatives) (isWritten : tree.Every written)
    (isReprintable : tree.Every reprintable) : tree.Spelled := by
  cases tree with
  | none => exact fun _ => rfl
  | otherwise body => exact spelled_otherwise (Statement.spelled_each body isWritten isReprintable)
  | branch condition body rest =>
      exact spelled_branch (condition.spelled isWritten.1 isReprintable.1)
        (Statement.spelled_each body isWritten.2.1 isReprintable.2.1)
        (rest.spelled isWritten.2.2 isReprintable.2.2)

theorem Definition.spelled (definition : Definition) (names : definition.IsWritten)
    (isWritten : definition.Every written) (isReprintable : definition.Every reprintable) :
    definition.Spelled := by
  cases definition with
  | mk name parameters body =>
      exact spelled_definition names (Statement.spelled_each body isWritten isReprintable)

end

/-- The lexer finds the words of a printed program in its text. -/
theorem Program.words_render {program : Program} (isWritten : Statement.EveryEach written program)
    (isReprintable : Statement.EveryEach reprintable program) :
    Token.words (Program.render program).toList = Statement.spellEach program := by
  have each := Statement.spelled_each program isWritten isReprintable
  clear isWritten isReprintable
  induction program with
  | nil => simp [Program.render]
  | cons head tail induction =>
      have first := each head List.mem_cons_self
      cases tail with
      | nil => simpa [Program.render] using first []
      | cons next rest =>
          have others := induction fun tree member => each tree (List.mem_cons_of_mem head member)
          have text : (Program.render (head :: next :: rest)).toList =
              head.render.toList ++ ' ' :: (Program.render (next :: rest)).toList := by
            simp only [Program.render, List.map_cons, String.intercalate_cons_cons,
              String.toList_append, List.append_assoc]
            rfl
          rw [text, first, Token.words_blank rfl, others]
          rfl

end Trees

end Easel
