import Easel.Syntax

/-!
Conditions on all parts of a tree.
-/

namespace Easel

/-- A condition on expressions and one on statements. -/
structure Trait where
  onExpression : Expression → Prop
  onStatement : Statement → Prop

mutual

/-- Every expression and every statement in the tree satisfies its condition, the tree itself
included. -/
def Expression.Every (trait : Trait) : Expression → Prop
  | .identifier name => trait.onExpression (.identifier name)
  | .literal value => trait.onExpression (.literal value)
  | .unary operator operand =>
      trait.onExpression (.unary operator operand) ∧ operand.Every trait
  | .binary operator left right =>
      trait.onExpression (.binary operator left right) ∧ left.Every trait ∧ right.Every trait
  | .assign operator name value =>
      trait.onExpression (.assign operator name value) ∧ value.Every trait
  | .call name arguments =>
      trait.onExpression (.call name arguments) ∧ Expression.EveryEach trait arguments
  | .list items => trait.onExpression (.list items) ∧ Expression.EveryEach trait items
  | .function definition =>
      trait.onExpression (.function definition) ∧ definition.Every trait

def Expression.EveryEach (trait : Trait) : List Expression → Prop
  | [] => True
  | expression :: rest => expression.Every trait ∧ Expression.EveryEach trait rest

def Statement.Every (trait : Trait) : Statement → Prop
  | .block body => trait.onStatement (.block body) ∧ Statement.EveryEach trait body
  | .conditional condition body alternatives =>
      trait.onStatement (.conditional condition body alternatives) ∧ condition.Every trait ∧
        Statement.EveryEach trait body ∧ alternatives.Every trait
  | .whileLoop condition body =>
      trait.onStatement (.whileLoop condition body) ∧ condition.Every trait ∧
        Statement.EveryEach trait body
  | .forLoop start condition step body =>
      trait.onStatement (.forLoop start condition step body) ∧ start.Every trait ∧
        condition.Every trait ∧ step.Every trait ∧ Statement.EveryEach trait body
  | .foreachLoop item items body =>
      trait.onStatement (.foreachLoop item items body) ∧ items.Every trait ∧
        Statement.EveryEach trait body
  | .repeatLoop count body =>
      trait.onStatement (.repeatLoop count body) ∧ count.Every trait ∧
        Statement.EveryEach trait body
  | .definition definition =>
      trait.onStatement (.definition definition) ∧ definition.Every trait
  | .ret value => trait.onStatement (.ret value) ∧ value.Every trait
  | .breakLoop => trait.onStatement .breakLoop
  | .continueLoop => trait.onStatement .continueLoop
  | .expression expression =>
      trait.onStatement (.expression expression) ∧ expression.Every trait
  | .empty => trait.onStatement .empty

def Statement.EveryEach (trait : Trait) : List Statement → Prop
  | [] => True
  | statement :: rest => statement.Every trait ∧ Statement.EveryEach trait rest

def Alternatives.Every (trait : Trait) : Alternatives → Prop
  | .none => True
  | .otherwise body => Statement.EveryEach trait body
  | .branch condition body rest =>
      condition.Every trait ∧ Statement.EveryEach trait body ∧ rest.Every trait

/-- The condition is on what a function does, not on its name and its parameters. -/
def Definition.Every (trait : Trait) : Definition → Prop
  | .mk _ _ body => Statement.EveryEach trait body

end

theorem Expression.everyEach_iff {trait : Trait} {trees : List Expression} :
    Expression.EveryEach trait trees ↔ ∀ tree ∈ trees, tree.Every trait := by
  induction trees with
  | nil => simp [Expression.EveryEach]
  | cons head tail induction =>
      rw [Expression.EveryEach, induction, List.forall_mem_cons]

/-- The condition that every tree satisfies. -/
def Trait.any : Trait :=
  ⟨fun _ => True, fun _ => True⟩

mutual

theorem Expression.every_any : (tree : Expression) → tree.Every .any
  | .identifier _ | .literal _ => trivial
  | .unary _ operand => ⟨trivial, operand.every_any⟩
  | .binary _ left right => ⟨trivial, left.every_any, right.every_any⟩
  | .assign _ _ value => ⟨trivial, value.every_any⟩
  | .call _ trees | .list trees => ⟨trivial, Expression.everyEach_any trees⟩
  | .function definition => ⟨trivial, definition.every_any⟩

theorem Expression.everyEach_any : (trees : List Expression) → Expression.EveryEach .any trees
  | [] => trivial
  | tree :: rest => ⟨tree.every_any, Expression.everyEach_any rest⟩

theorem Statement.every_any : (tree : Statement) → tree.Every .any
  | .block body => ⟨trivial, Statement.everyEach_any body⟩
  | .conditional condition body alternatives =>
      ⟨trivial, condition.every_any, Statement.everyEach_any body, alternatives.every_any⟩
  | .forLoop start condition step body =>
      ⟨trivial, start.every_any, condition.every_any, step.every_any, Statement.everyEach_any body⟩
  | .whileLoop header body | .foreachLoop _ header body | .repeatLoop header body =>
      ⟨trivial, header.every_any, Statement.everyEach_any body⟩
  | .definition function => ⟨trivial, function.every_any⟩
  | .ret tree | .expression tree => ⟨trivial, tree.every_any⟩
  | .breakLoop | .continueLoop | .empty => trivial

theorem Statement.everyEach_any : (trees : List Statement) → Statement.EveryEach .any trees
  | [] => trivial
  | tree :: rest => ⟨tree.every_any, Statement.everyEach_any rest⟩

theorem Alternatives.every_any : (tree : Alternatives) → tree.Every .any
  | .none => trivial
  | .otherwise body => Statement.everyEach_any body
  | .branch condition body rest =>
      ⟨condition.every_any, Statement.everyEach_any body, rest.every_any⟩

theorem Definition.every_any : (tree : Definition) → tree.Every .any
  | .mk _ _ body => Statement.everyEach_any body

end

/-- Where the first condition is satisfied, so is the second. -/
structure Trait.Implies (trait other : Trait) : Prop where
  onExpression : ∀ {node}, trait.onExpression node → other.onExpression node
  onStatement : ∀ {node}, trait.onStatement node → other.onStatement node

section Implies

variable {trait other : Trait}

mutual

theorem Expression.Every.mono (implies : trait.Implies other) :
    {tree : Expression} → tree.Every trait → tree.Every other
  | .identifier _, here | .literal _, here => implies.onExpression here
  | .unary .., ⟨here, operand⟩ => ⟨implies.onExpression here, operand.mono implies⟩
  | .binary .., ⟨here, left, right⟩ =>
      ⟨implies.onExpression here, left.mono implies, right.mono implies⟩
  | .assign .., ⟨here, value⟩ => ⟨implies.onExpression here, value.mono implies⟩
  | .call .., ⟨here, trees⟩ | .list _, ⟨here, trees⟩ =>
      ⟨implies.onExpression here, trees.mono implies⟩
  | .function _, ⟨here, definition⟩ => ⟨implies.onExpression here, definition.mono implies⟩

theorem Expression.EveryEach.mono (implies : trait.Implies other) :
    {trees : List Expression} → Expression.EveryEach trait trees →
      Expression.EveryEach other trees
  | [], _ => trivial
  | _ :: _, ⟨tree, rest⟩ => ⟨tree.mono implies, rest.mono implies⟩

theorem Statement.Every.mono (implies : trait.Implies other) :
    {tree : Statement} → tree.Every trait → tree.Every other
  | .block _, ⟨here, body⟩ => ⟨implies.onStatement here, body.mono implies⟩
  | .conditional .., ⟨here, condition, body, alternatives⟩ =>
      ⟨implies.onStatement here, condition.mono implies, body.mono implies,
        alternatives.mono implies⟩
  | .forLoop .., ⟨here, start, condition, step, body⟩ =>
      ⟨implies.onStatement here, start.mono implies, condition.mono implies, step.mono implies,
        body.mono implies⟩
  | .whileLoop .., ⟨here, header, body⟩ | .foreachLoop .., ⟨here, header, body⟩
  | .repeatLoop .., ⟨here, header, body⟩ =>
      ⟨implies.onStatement here, header.mono implies, body.mono implies⟩
  | .definition _, ⟨here, function⟩ => ⟨implies.onStatement here, function.mono implies⟩
  | .ret _, ⟨here, tree⟩ | .expression _, ⟨here, tree⟩ =>
      ⟨implies.onStatement here, tree.mono implies⟩
  | .breakLoop, here | .continueLoop, here | .empty, here => implies.onStatement here

theorem Statement.EveryEach.mono (implies : trait.Implies other) :
    {trees : List Statement} → Statement.EveryEach trait trees → Statement.EveryEach other trees
  | [], _ => trivial
  | _ :: _, ⟨tree, rest⟩ => ⟨tree.mono implies, rest.mono implies⟩

theorem Alternatives.Every.mono (implies : trait.Implies other) :
    {tree : Alternatives} → tree.Every trait → tree.Every other
  | .none, _ => trivial
  | .otherwise _, body => Statement.EveryEach.mono implies body
  | .branch .., ⟨condition, body, rest⟩ =>
      ⟨condition.mono implies, body.mono implies, rest.mono implies⟩

theorem Definition.Every.mono (implies : trait.Implies other) :
    {tree : Definition} → tree.Every trait → tree.Every other
  | .mk .., body => Statement.EveryEach.mono implies body

end

end Implies

section Decidable

variable {trait : Trait} [DecidablePred trait.onExpression] [DecidablePred trait.onStatement]

mutual

def Expression.decideEvery : (tree : Expression) → Decidable (tree.Every trait)
  | .identifier _ | .literal _ => inferInstanceAs (Decidable (trait.onExpression _))
  | .unary _ operand =>
      have := operand.decideEvery
      inferInstanceAs (Decidable (_ ∧ operand.Every trait))
  | .binary _ left right =>
      have := left.decideEvery
      have := right.decideEvery
      inferInstanceAs (Decidable (_ ∧ left.Every trait ∧ right.Every trait))
  | .assign _ _ value =>
      have := value.decideEvery
      inferInstanceAs (Decidable (_ ∧ value.Every trait))
  | .call _ trees | .list trees =>
      have := Expression.decideEveryEach trees
      inferInstanceAs (Decidable (_ ∧ Expression.EveryEach trait trees))
  | .function definition =>
      have := definition.decideEvery
      inferInstanceAs (Decidable (_ ∧ definition.Every trait))

def Expression.decideEveryEach : (trees : List Expression) → Decidable (Expression.EveryEach trait trees)
  | [] => isTrue trivial
  | tree :: rest =>
      have := tree.decideEvery
      have := Expression.decideEveryEach rest
      inferInstanceAs (Decidable (tree.Every trait ∧ Expression.EveryEach trait rest))

def Statement.decideEvery : (tree : Statement) → Decidable (tree.Every trait)
  | .block body =>
      have := Statement.decideEveryEach body
      inferInstanceAs (Decidable (_ ∧ Statement.EveryEach trait body))
  | .conditional condition body alternatives =>
      have := condition.decideEvery
      have := Statement.decideEveryEach body
      have := alternatives.decideEvery
      inferInstanceAs (Decidable (_ ∧ condition.Every trait ∧ Statement.EveryEach trait body ∧
        alternatives.Every trait))
  | .forLoop start condition step body =>
      have := start.decideEvery
      have := condition.decideEvery
      have := step.decideEvery
      have := Statement.decideEveryEach body
      inferInstanceAs (Decidable (_ ∧ start.Every trait ∧ condition.Every trait ∧
        step.Every trait ∧ Statement.EveryEach trait body))
  | .whileLoop header body | .foreachLoop _ header body | .repeatLoop header body =>
      have := header.decideEvery
      have := Statement.decideEveryEach body
      inferInstanceAs (Decidable (_ ∧ header.Every trait ∧ Statement.EveryEach trait body))
  | .definition function =>
      have := function.decideEvery
      inferInstanceAs (Decidable (_ ∧ function.Every trait))
  | .ret tree | .expression tree =>
      have := tree.decideEvery
      inferInstanceAs (Decidable (_ ∧ tree.Every trait))
  | .breakLoop | .continueLoop | .empty => inferInstanceAs (Decidable (trait.onStatement _))

def Statement.decideEveryEach : (trees : List Statement) → Decidable (Statement.EveryEach trait trees)
  | [] => isTrue trivial
  | tree :: rest =>
      have := tree.decideEvery
      have := Statement.decideEveryEach rest
      inferInstanceAs (Decidable (tree.Every trait ∧ Statement.EveryEach trait rest))

def Alternatives.decideEvery : (tree : Alternatives) → Decidable (tree.Every trait)
  | .none => isTrue trivial
  | .otherwise body => Statement.decideEveryEach body
  | .branch condition body rest =>
      have := condition.decideEvery
      have := Statement.decideEveryEach body
      have := rest.decideEvery
      inferInstanceAs (Decidable (condition.Every trait ∧ Statement.EveryEach trait body ∧
        rest.Every trait))

def Definition.decideEvery : (tree : Definition) → Decidable (tree.Every trait)
  | .mk _ _ body => Statement.decideEveryEach body

end

instance (trees : List Statement) : Decidable (Statement.EveryEach trait trees) :=
  Statement.decideEveryEach trees

end Decidable

end Easel
