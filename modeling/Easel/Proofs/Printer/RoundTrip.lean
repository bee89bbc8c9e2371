import Easel.Proofs.Parser.Depth
import Easel.Proofs.Printer.Spelling

/-!
A printed program is read back. The words of a printed tree derive that tree: the parentheses
that the printer writes make an operand of every expression that is not an assignment, whatever
its operators are. They also add nesting levels, two for each level of the tree at most, so the
reader may refuse the text as too deep, and that is all it may do.
-/

namespace Easel

open Grammar
open Word (enclosed separated)

section Lists

variable {phrase : List Word → Expression → Prop} {trees : List Expression}

theorem separated_spellEach (some : trees ≠ []) (each : ∀ tree ∈ trees, phrase tree.spell tree) :
    Separated phrase (separated (Expression.spellEach trees)) trees := by
  induction trees with
  | nil => exact absurd rfl some
  | cons tree trees induction =>
      have head := each tree List.mem_cons_self
      cases trees with
      | nil => exact .last head
      | cons next rest =>
          apply Separated.cons head
          exact induction (List.cons_ne_nil next rest) fun other member =>
            each other (List.mem_cons_of_mem tree member)

theorem listed_spellEach (opening closing : String)
    (each : ∀ tree ∈ trees, phrase tree.spell tree) :
    Listed phrase opening closing (enclosed opening closing (separated (Expression.spellEach trees)))
      trees := by
  cases trees with
  | nil => exact .empty
  | cons tree trees => exact .items (separated_spellEach (List.cons_ne_nil tree trees) each)

theorem listed_parameters (parameters : List String) :
    Listed IsParameter "(" ")"
      (enclosed "(" ")" (separated (parameters.map fun name => [.identifier name]))) parameters := by
  cases parameters with
  | nil => exact .empty
  | cons name parameters =>
      apply Listed.items
      induction parameters generalizing name with
      | nil => exact .last (.identifier name)
      | cons next rest induction => exact .cons (.identifier name) (induction next)

end Lists

/-- The words of the printed expression derive it, and as an operand unless it is an assignment. -/
structure Expression.Derived (depth : Nat) (tree : Expression) : Prop where
  operand : tree.isAssign = false → IsPrimary (phrases depth) tree.spell tree
  expression : IsExpression (phrases depth) tree.spell tree

theorem derived_of_primary {depth : Nat} {tree : Expression}
    (primary : IsPrimary (phrases depth) tree.spell tree) : tree.Derived depth where
  operand := fun _ => primary
  expression := .term (IsTerm.loosen (.primary primary) (by decide) (by decide))

theorem Expression.Derived.term {depth : Nat} {tree : Expression} (derived : tree.Derived depth)
    (operand : tree.isAssign = false) {level : Precedence} (operators : level ≠ .lowest) :
    IsTerm (phrases depth) level tree.spell tree :=
  IsTerm.loosen (.primary (derived.operand operand)) level.rank_le_unary operators

/-- An operator expression in parentheses, seen from outside. -/
theorem derived_of_term {depth : Nat} {tree : Expression} {level : Precedence} {words : List Word}
    (spelled : tree.spell = enclosed "(" ")" words)
    (term : IsTerm (phrases depth) level words tree) (operators : level ≠ .lowest) :
    tree.Derived (depth + 1) := by
  apply derived_of_primary
  rw [spelled]
  refine .parenthesised (.term (term.loosen ?_ (by decide)))
  cases level <;> first | decide | exact absurd rfl operators

section Expressions

variable {depth : Nat}

theorem derived_increment {operator : UnaryOperator} {name : String}
    (after : operator.isAfterOperand = true) :
    (Expression.unary operator (.identifier name)).Derived (depth + 1) := by
  refine derived_of_term ?_ (.primary (.increment name after)) (by decide)
  simp [Expression.spell, after]

theorem derived_unary {operator : UnaryOperator} {operand : Expression}
    (before : operator.isAfterOperand = false) (unassigned : operand.isAssign = false)
    (derived : operand.Derived depth) : (Expression.unary operator operand).Derived (depth + 2) := by
  refine derived_of_term ?_ (.unary before (derived.term unassigned (by decide))) (by decide)
  simp [Expression.spell, before]

theorem derived_index {left right : Expression} (unassigned : left.isAssign = false)
    (leftDerived : left.Derived (depth + 1)) (rightDerived : right.Derived depth) :
    (Expression.binary .index left right).Derived (depth + 2) := by
  refine derived_of_term ?_
    (.index (leftDerived.term unassigned (by decide)) rightDerived.expression) (by decide)
  simp [Expression.spell, enclosed]

theorem derived_binary {operator : BinaryOperator} {left right : Expression}
    (infixed : operator ≠ .index) (unassigned : left.isAssign = false ∧ right.isAssign = false)
    (leftDerived : left.Derived (depth + 1)) (rightDerived : right.Derived depth) :
    (Expression.binary operator left right).Derived (depth + 2) := by
  refine derived_of_term ?_
    (.binary infixed (leftDerived.term unassigned.1 operator.precedence_ne_lowest)
      (rightDerived.term unassigned.2 operator.precedence.tighter_ne_lowest))
    operator.precedence_ne_lowest
  cases operator <;> simp_all [Expression.spell]

theorem derived_assign {operator : AssignOperator} {name : String} {value : Expression}
    (derived : value.Derived depth) : (Expression.assign operator name value).Derived (depth + 1) where
  operand := by
    intro unassigned
    cases unassigned
  expression := .assign operator name derived.expression

theorem derived_number {magnitude : Nat} (isFinite : magnitude < Number.infinityBits) :
    (Expression.literal (.number (Number.ofMagnitude false magnitude))).Derived depth := by
  have primary : IsPrimary (phrases depth) _ _ :=
    .number (Number.ofMagnitude false magnitude).render
  rw [Number.numeral_render isFinite] at primary
  exact derived_of_primary primary

end Expressions

/-- Only the definition of a named function begins like one. -/
theorem not_beginsDefinition {tree : Expression}
    (isReprintable : (Statement.expression tree).IsReprintable) :
    ¬BeginsDefinition tree.spell := by
  intro begun
  obtain ⟨name, rest, begun⟩ := begun
  cases tree with
  | unary operator operand =>
      unfold Expression.spell at begun
      split at begun <;> cases begun
  | binary operator left right =>
      cases operator <;> cases begun
  | function definition =>
      obtain ⟨_, parameters, body⟩ := definition
      cases (isReprintable : _ = none)
      cases begun
  | literal value => cases value <;> cases begun
  | _ => cases begun

theorem beginsDefinition_spell {definition : Definition} (named : definition.name.isSome = true) :
    BeginsDefinition definition.spell := by
  obtain ⟨name, parameters, body⟩ := definition
  obtain ⟨name, rfl⟩ := Option.isSome_iff_exists.mp named
  exact ⟨name, _, rfl⟩

mutual

theorem Expression.derived (tree : Expression) (isWritten : tree.Every written)
    (isReprintable : tree.Every reprintable) {depth : Nat} (room : 2 * sizeOf tree ≤ depth) :
    tree.Derived depth := by
  cases tree with
  | identifier name => exact derived_of_primary (.identifier name)
  | literal value =>
      cases value with
      | number value =>
          obtain ⟨magnitude, isFinite, rfl⟩ := exists_finite_magnitude isWritten isReprintable
          exact derived_number isFinite
      | text quoted => exact derived_of_primary (.text quoted)
  | unary operator operand =>
      simp only [Expression.unary.sizeOf_spec] at room
      obtain ⟨depth, rfl⟩ : ∃ inner, depth = inner + 2 := ⟨depth - 2, by omega⟩
      cases after : operator.isAfterOperand with
      | true =>
          obtain ⟨name, rfl⟩ := isWritten.1 after
          exact derived_increment after
      | false =>
          exact derived_unary after isReprintable.1
            (operand.derived isWritten.2 isReprintable.2 (by omega))
  | binary operator left right =>
      simp only [Expression.binary.sizeOf_spec] at room
      obtain ⟨depth, rfl⟩ : ∃ inner, depth = inner + 2 := ⟨depth - 2, by omega⟩
      obtain ⟨leftUnassigned, rightUnassigned, -⟩ := isReprintable.1
      have leftDerived : left.Derived (depth + 1) :=
        left.derived isWritten.2.1 isReprintable.2.1 (by omega)
      have rightDerived : right.Derived depth :=
        right.derived isWritten.2.2 isReprintable.2.2 (by omega)
      by_cases index : operator = .index
      · subst index
        exact derived_index leftUnassigned leftDerived rightDerived
      · exact derived_binary index ⟨leftUnassigned, rightUnassigned index⟩ leftDerived rightDerived
  | assign operator name value =>
      simp only [Expression.assign.sizeOf_spec] at room
      obtain ⟨depth, rfl⟩ : ∃ inner, depth = inner + 1 := ⟨depth - 1, by omega⟩
      exact derived_assign (value.derived isWritten.2 isReprintable.2 (by omega))
  | call name arguments =>
      simp only [Expression.call.sizeOf_spec] at room
      obtain ⟨depth, rfl⟩ : ∃ inner, depth = inner + 1 := ⟨depth - 1, by omega⟩
      have each := Expression.derived_each arguments isWritten.2 isReprintable.2
        (show 2 * sizeOf arguments ≤ depth by omega)
      exact derived_of_primary (.call name (listed_spellEach "(" ")" each))
  | list items =>
      simp only [Expression.list.sizeOf_spec] at room
      obtain ⟨depth, rfl⟩ : ∃ inner, depth = inner + 1 := ⟨depth - 1, by omega⟩
      have each := Expression.derived_each items isWritten.2 isReprintable.2
        (show 2 * sizeOf items ≤ depth by omega)
      exact derived_of_primary (.list (listed_spellEach "[" "]" each))
  | function definition =>
      simp only [Expression.function.sizeOf_spec] at room
      exact derived_of_primary
        (.function (definition.derived isWritten.2 isReprintable.2 (by omega)))

theorem Expression.derived_each (trees : List Expression)
    (areWritten : Expression.EveryEach written trees)
    (areReprintable : Expression.EveryEach reprintable trees) {depth : Nat}
    (room : 2 * sizeOf trees ≤ depth) :
    ∀ tree ∈ trees, IsExpression (phrases depth) tree.spell tree := by
  cases trees with
  | nil =>
      intro tree member
      cases member
  | cons head tail =>
      simp only [List.cons.sizeOf_spec] at room
      have derived : head.Derived depth := head.derived areWritten.1 areReprintable.1 (by omega)
      exact List.forall_mem_cons.mpr ⟨derived.expression,
        Expression.derived_each tail areWritten.2 areReprintable.2 (by omega)⟩

theorem Statement.derived (tree : Statement) (isWritten : tree.Every written)
    (isReprintable : tree.Every reprintable) {depth : Nat} (room : 2 * sizeOf tree ≤ depth) :
    IsStatement (phrases depth) tree.spell tree := by
  obtain ⟨depth, rfl⟩ : ∃ inner, depth = inner + 1 := by
    refine ⟨depth - 1, ?_⟩
    cases tree <;> simp at room <;> omega
  cases tree with
  | block body =>
      simp only [Statement.block.sizeOf_spec] at room
      exact .block (.braced (Statement.derived_each body isWritten.2 isReprintable.2 (by omega)))
  | conditional condition body alternatives =>
      simp only [Statement.conditional.sizeOf_spec] at room
      have tested : condition.Derived depth :=
        condition.derived isWritten.2.1 isReprintable.2.1 (by omega)
      exact .conditional (.parenthesised tested.expression)
        (.braced (Statement.derived_each body isWritten.2.2.1 isReprintable.2.2.1 (by omega)))
        (alternatives.derived isWritten.2.2.2 isReprintable.2.2.2 (by omega))
  | whileLoop condition body =>
      simp only [Statement.whileLoop.sizeOf_spec] at room
      have tested : condition.Derived depth :=
        condition.derived isWritten.2.1 isReprintable.2.1 (by omega)
      exact .whileLoop (.parenthesised tested.expression)
        (.braced (Statement.derived_each body isWritten.2.2 isReprintable.2.2 (by omega)))
  | forLoop start condition step body =>
      simp only [Statement.forLoop.sizeOf_spec] at room
      have first : start.Derived depth := start.derived isWritten.2.1 isReprintable.2.1 (by omega)
      have second : condition.Derived depth :=
        condition.derived isWritten.2.2.1 isReprintable.2.2.1 (by omega)
      have third : step.Derived depth :=
        step.derived isWritten.2.2.2.1 isReprintable.2.2.2.1 (by omega)
      have statements := Statement.derived_each body isWritten.2.2.2.2 isReprintable.2.2.2.2
        (show 2 * sizeOf body ≤ depth by omega)
      have loop : IsStatement (phrases (depth + 1)) _ (.forLoop start condition step body) :=
        .forLoop first.expression second.expression third.expression (.braced statements)
      simpa [Statement.spell, enclosed, separated] using loop
  | foreachLoop item items body =>
      simp only [Statement.foreachLoop.sizeOf_spec] at room
      have inside : items.Derived depth := items.derived isWritten.2.1 isReprintable.2.1 (by omega)
      have statements := Statement.derived_each body isWritten.2.2 isReprintable.2.2
        (show 2 * sizeOf body ≤ depth by omega)
      have loop : IsStatement (phrases (depth + 1)) _ (.foreachLoop item items body) :=
        .foreachLoop item inside.expression (.braced statements)
      simpa [Statement.spell, enclosed] using loop
  | repeatLoop count body =>
      simp only [Statement.repeatLoop.sizeOf_spec] at room
      have counted : count.Derived depth := count.derived isWritten.2.1 isReprintable.2.1 (by omega)
      exact .repeatLoop (.parenthesised counted.expression)
        (.braced (Statement.derived_each body isWritten.2.2 isReprintable.2.2 (by omega)))
  | definition function =>
      simp only [Statement.definition.sizeOf_spec] at room
      exact .definition (beginsDefinition_spell isWritten.1.1)
        (function.derived isWritten.2 isReprintable.2 (by omega))
  | ret value =>
      simp only [Statement.ret.sizeOf_spec] at room
      have returned : value.Derived depth := value.derived isWritten.2 isReprintable.2 (by omega)
      exact .ret returned.expression
  | breakLoop => exact .breakLoop
  | continueLoop => exact .continueLoop
  | expression tree =>
      simp only [Statement.expression.sizeOf_spec] at room
      have evaluated : tree.Derived depth := tree.derived isWritten.2 isReprintable.2 (by omega)
      exact .expression evaluated.expression (not_beginsDefinition isReprintable.1)
  | empty => exact .empty

theorem Statement.derived_each (trees : List Statement)
    (areWritten : Statement.EveryEach written trees)
    (areReprintable : Statement.EveryEach reprintable trees) {depth : Nat}
    (room : 2 * sizeOf trees ≤ depth) :
    Sequence (IsStatement (phrases depth)) (Statement.spellEach trees) trees := by
  cases trees with
  | nil => exact .nil
  | cons head tail =>
      simp only [List.cons.sizeOf_spec] at room
      exact .cons (head.derived areWritten.1 areReprintable.1 (by omega))
        (Statement.derived_each tail areWritten.2 areReprintable.2 (by omega))

theorem Alternatives.derived (tree : Alternatives) (isWritten : tree.Every written)
    (isReprintable : tree.Every reprintable) {depth : Nat} (room : 2 * sizeOf tree ≤ depth) :
    IsAlternatives (phrases (depth + 1)) tree.spell tree := by
  cases tree with
  | none => exact .none
  | otherwise body =>
      simp only [Alternatives.otherwise.sizeOf_spec] at room
      exact .otherwise (.braced (Statement.derived_each body isWritten isReprintable (by omega)))
  | branch condition body rest =>
      simp only [Alternatives.branch.sizeOf_spec] at room
      have tested : condition.Derived depth :=
        condition.derived isWritten.1 isReprintable.1 (by omega)
      exact .branch (.parenthesised tested.expression)
        (.braced (Statement.derived_each body isWritten.2.1 isReprintable.2.1 (by omega)))
        (rest.derived isWritten.2.2 isReprintable.2.2 (by omega))

theorem Definition.derived (definition : Definition) (isWritten : definition.Every written)
    (isReprintable : definition.Every reprintable) {depth : Nat}
    (room : 2 * sizeOf definition ≤ depth) :
    IsFunction (phrases depth) definition.spell definition := by
  cases definition with
  | mk name parameters body =>
      simp only [Definition.mk.sizeOf_spec] at room
      obtain ⟨depth, rfl⟩ : ∃ inner, depth = inner + 1 := ⟨depth - 1, by omega⟩
      have statements := Statement.derived_each body isWritten isReprintable
        (show 2 * sizeOf body ≤ depth by omega)
      cases name with
      | none => exact .unnamed (listed_parameters parameters) (.braced statements)
      | some name => exact .named name (listed_parameters parameters) (.braced statements)

end

theorem shaped_of_tokenize (source : String) :
    Shaped ((Token.tokenize source).map Token.word) := by
  intro word member
  rw [Token.map_word_tokenize] at member
  exact Token.hasShape_of_mem_words member

theorem Program.isProgram_render {program : Program}
    (isWritten : Statement.EveryEach written program)
    (isReprintable : Statement.EveryEach reprintable program) :
    IsProgram (2 * sizeOf program + 1) ((Token.tokenize (Program.render program)).map Token.word)
      program := by
  rw [Token.map_word_tokenize, Program.words_render isWritten isReprintable]
  exact Statement.derived_each program isWritten isReprintable (Nat.le_refl _)

theorem parse_render_eq_or_tooDeep (source : String) (program : Program)
    (parsed : Program.parse source = .ok program)
    (isReprintable : Statement.EveryEach reprintable program) :
    Program.parse (Program.render program) = .ok program ∨
      ∃ position, Program.parse (Program.render program) =
        .error (.tooDeep position Parser.nestingLimit) := by
  have lexed : ∀ text, ∀ token ∈ Token.tokenize text, token.IsLexed :=
    fun _ _ => Token.isLexed_of_mem_tokenize
  have derived := Parser.ofTokensWithin_sound (lexed source) parsed
  have isWritten := derived.written (shaped_of_tokenize source)
  exact Parser.ofTokens_of_isProgram (lexed (Program.render program))
    (Program.isProgram_render isWritten isReprintable)

/-- An assignment inside an index, a point behind a number that has one, a function literal, an
increment from behind and operators of three levels. -/
theorem parse_render_eq_or_tooDeep_loop :
    let source := "total = -y[i = 1.5] * 0.1 . z; " ++
      "for (x : [def (a, b) \x7b ret a--; \x7d, \"k\"]) \x7b (f(x)) && !g; \x7d"
    ∃ program, Program.parse source = .ok program ∧ Statement.EveryEach reprintable program ∧
      Program.parse (Program.render program) = .ok program := by
  intro source
  have checked : (match Program.parse source with
      | .ok program => decide (Statement.EveryEach reprintable program ∧
          (Program.parse (Program.render program)).isOk = true)
      | .error _ => false) = true := by decide +kernel
  cases parsed : Program.parse source with
  | error error =>
      rw [parsed] at checked
      cases checked
  | ok program =>
      rw [parsed] at checked
      have ⟨isReprintable, accepted⟩ := of_decide_eq_true checked
      refine ⟨program, rfl, isReprintable, ?_⟩
      rcases parse_render_eq_or_tooDeep source program parsed isReprintable with same | stopped
      · exact same
      · obtain ⟨position, refused⟩ := stopped
        rw [refused] at accepted
        cases accepted

end Easel
