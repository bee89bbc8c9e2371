import Easel.Proofs.Trees
import Easel.Value.Operations

/-!
Conditions on trees, read as conditions on the values that hold them, and what operations do to
values in this respect. Only functions hold trees, and the only operation that gives back a
value which was there before is indexing. It is also the only one that can crash, and does so
when an item is asked for where there is none.
-/

namespace Easel

def Text.IsQuoted (raw : String) : Prop :=
  ∃ content, raw = Text.quote content

mutual

/-- Every function in the value satisfies the condition, together with all of its body. -/
def Value.Every (trait : Trait) : Value → Prop
  | .function definition => trait.onExpression (.function definition) ∧ definition.Every trait
  | .list items => Value.EveryEach trait items
  | .number _ | .text _ | .none => True

def Value.EveryEach (trait : Trait) : List Value → Prop
  | [] => True
  | value :: rest => value.Every trait ∧ Value.EveryEach trait rest

end

namespace Value

variable {trait : Trait}

theorem everyEach_iff {values : List Value} :
    EveryEach trait values ↔ ∀ value ∈ values, value.Every trait := by
  induction values with
  | nil => simp [EveryEach]
  | cons head tail induction => rw [EveryEach, induction, List.forall_mem_cons]

mutual

theorem every_any : (value : Value) → value.Every .any
  | .function definition => ⟨trivial, definition.every_any⟩
  | .list items => everyEach_any items
  | .number _ | .text _ | .none => trivial

theorem everyEach_any : (values : List Value) → EveryEach .any values
  | [] => trivial
  | value :: rest => ⟨value.every_any, everyEach_any rest⟩

end

theorem every_ofLiteral (literal : Literal) : (ofLiteral literal).Every trait := by
  cases literal <;> trivial

end Value

/-- What programs make of trees that satisfy the condition are good values, and good functions are
made of such trees. -/
structure Trait.Admits (trait : Trait) (good : Value → Prop) : Prop where
  number : ∀ n, good (.number n)
  none : good .none
  content : ∀ content, good (.ofContent content)
  literal : ∀ {literal}, trait.onExpression (.literal literal) → good (.ofLiteral literal)
  list : ∀ {items}, good (.list items) ↔ ∀ item ∈ items, good item
  function : ∀ {definition}, good (.function definition) ↔
    trait.onExpression (.function definition) ∧ definition.Every trait

theorem Trait.admits_every {trait : Trait} : trait.Admits (Value.Every trait) where
  number _ := trivial
  none := trivial
  content _ := trivial
  literal _ := Value.every_ofLiteral _
  list := Value.everyEach_iff
  function := Iff.rfl

namespace Value

variable {trait : Trait}

def IsPlain : Except Mishap Value → Prop
  | .ok (.text raw) => Text.IsQuoted raw
  | .ok (.number _) | .error (.error _) => True
  | _ => False

theorem isPlain_orRefuse {operator : BinaryOperator} {left right : Value} {result : Option Value}
    (plain : ∀ value, result = some value → IsPlain (.ok value)) :
    IsPlain (binary.orRefuse operator left right result) := by
  cases result with
  | none => trivial
  | some value => exact plain value rfl

theorem isPlain_arithmetic (operator : BinaryOperator) (left right : Number) :
    IsPlain ((arithmetic operator left right).mapError .error) := by
  unfold arithmetic
  split <;> try trivial
  split <;> trivial

/-- Only indexing gives back a value that was there before, and only indexing can crash. -/
theorem isPlain_binary {operator : BinaryOperator} (other : operator ≠ .index)
    (left right : Value) : IsPlain (binary operator left right) := by
  have compared : ∀ holds : Bool → Bool, IsPlain (binary.orRefuse operator left right
      ((equality? left right).map fun equal => ofBool (holds equal))) := by
    intro holds
    apply isPlain_orRefuse
    intro value made
    obtain ⟨equal, -, rfl⟩ := Option.map_eq_some_iff.mp made
    trivial
  have added : IsPlain (binary.orRefuse operator left right (sum? left right)) := by
    apply isPlain_orRefuse
    intro value made
    unfold sum? at made
    split at made <;> cases made
    · trivial
    · exact ⟨_, rfl⟩
  cases operator with
  | index => exact absurd rfl other
  | and | or | member => trivial
  | equal => exact compared id
  | notEqual => exact compared not
  | plus => exact added
  | minus | times | divide | remainder | power | less | lessEqual | greater | greaterEqual =>
      dsimp only [binary]
      split
      · exact isPlain_arithmetic _ _ _
      · trivial

theorem mem_of_select {α : Type} {items : List α} {position : Number.Whole} {item : α}
    (selected : select items position = .ok item) : item ∈ items := by
  unfold select at selected
  split at selected
  · cases selected
  · split at selected
    · next found =>
        cases selected
        exact List.mem_of_getElem? found
    · cases selected

theorem index_eq_ok {container position value : Value}
    (indexed : index container position = .ok value) :
    (∃ items, container = .list items ∧ value ∈ items) ∨ ∃ content, value = .ofContent content := by
  unfold index at indexed
  split at indexed
  · next n =>
      split at indexed
      · next items => exact .inl ⟨items, rfl, mem_of_select indexed⟩
      · next quoted =>
          cases selected : select (Text.unquote quoted).toList n.truncate with
          | ok c =>
              rw [selected] at indexed
              cases indexed
              exact .inr ⟨_, rfl⟩
          | error mishap =>
              rw [selected] at indexed
              cases indexed
      · cases indexed
  · cases indexed

theorem exists_number_of_unary {operator : UnaryOperator} {operand value : Value}
    (made : unary operator operand = .ok value) : ∃ n, value = .number n := by
  unfold unary at made
  split at made <;> cases made <;> exact ⟨_, rfl⟩

theorem eq_unknownUnary_of_unary {operator : UnaryOperator} {operand : Value} {cause : RuntimeError}
    (refused : unary operator operand = .error cause) :
    cause = .unknownUnary operator.spelling operand.kind := by
  unfold unary at refused
  split at refused <;> cases refused
  rfl

/-- The errors that are about the operands of a binary operator. Every operator is known for two
numbers. -/
def IsRefusal : RuntimeError → Prop
  | .unknownBinary left _ right => ¬(left = .number ∧ right = .number)
  | .typeMismatch .. | .notIndexable _ | .outOfBounds .. | .divisionByZero | .unsupported _ => True
  | _ => False

def IsArithmetic : BinaryOperator → Prop
  | .plus | .minus | .times | .divide | .remainder | .power | .less | .lessEqual | .greater
  | .greaterEqual => True
  | .and | .or | .index | .member | .equal | .notEqual => False

theorem kind_eq_number_iff {value : Value} : value.kind = .number ↔ ∃ n, value = .number n := by
  cases value <;> simp [kind]

/-- An operation that complains of its operands only. -/
def Refuses {α : Type} (result : Except Mishap α) : Prop :=
  ∀ cause, result = .error (.error cause) → IsRefusal cause

theorem refuses_ok {α : Type} (value : α) : Refuses (.ok value) := nofun

theorem refuses_error {α : Type} {cause : RuntimeError} (refusal : IsRefusal cause) :
    Refuses (.error (.error cause) : Except Mishap α) := by
  intro other same
  cases same
  exact refusal

theorem isRefusal_operands {left right : Kind} (apart : ¬(left = .number ∧ right = .number))
    (operator : BinaryOperator) : IsRefusal (.operands left operator right) := by
  unfold RuntimeError.operands
  split
  · exact apart
  · trivial

theorem refuses_orRefuse (operator : BinaryOperator) {left right : Value} {result : Option Value}
    (given : ∀ m n, left = .number m → right = .number n → result.isSome = true) :
    Refuses (binary.orRefuse operator left right result) := by
  cases result with
  | some value => exact refuses_ok value
  | none =>
      apply refuses_error
      apply isRefusal_operands
      rintro ⟨leftKind, rightKind⟩
      obtain ⟨m, first⟩ := kind_eq_number_iff.mp leftKind
      obtain ⟨n, second⟩ := kind_eq_number_iff.mp rightKind
      cases given m n first second

theorem refuses_arithmetic {operator : BinaryOperator} (known : IsArithmetic operator)
    (left right : Number) : Refuses ((arithmetic operator left right).mapError .error) := by
  cases operator with
  | plus | minus | times | divide | power | less | lessEqual | greater | greaterEqual =>
      exact refuses_ok _
  | remainder =>
      dsimp only [arithmetic]
      split
      · exact refuses_ok _
      · exact refuses_error trivial
  | and | or | index | member | equal | notEqual => exact known.elim

theorem refuses_select {α : Type} (items : List α) (position : Number.Whole) :
    Refuses (select items position) := by
  unfold select selectIndex
  cases position with
  | nan =>
      cases items with
      | nil => nofun
      | cons item rest => exact refuses_ok item
  | infinite negative => exact refuses_error trivial
  | whole negative magnitude =>
      dsimp only
      split
      · next refused =>
          split at refused <;> cases refused
          exact refuses_error trivial
      · split
        · exact refuses_ok _
        · nofun

theorem refuses_index (container position : Value) : Refuses (index container position) := by
  unfold index
  cases position with
  | number n =>
      cases container with
      | list items => exact refuses_select items n.truncate
      | text quoted =>
          have selected := refuses_select (Text.unquote quoted).toList n.truncate
          dsimp only
          generalize select (Text.unquote quoted).toList n.truncate = found at selected
          cases found with
          | ok c => exact refuses_ok _
          | error mishap =>
              intro cause same
              cases same
              exact selected cause rfl
      | number _ | function _ | none => exact refuses_error trivial
  | text _ | function _ | list _ | none =>
      apply refuses_error
      apply isRefusal_operands
      rintro ⟨_, ⟨⟩⟩

theorem refuses_binary (operator : BinaryOperator) (left right : Value) :
    Refuses (binary operator left right) := by
  cases operator with
  | and | or => exact refuses_ok _
  | member => exact refuses_error trivial
  | index => exact refuses_index left right
  | equal | notEqual | plus =>
      apply refuses_orRefuse
      rintro m n rfl rfl
      rfl
  | minus | times | divide | remainder | power | less | lessEqual | greater | greaterEqual =>
      dsimp only [binary]
      split
      · apply refuses_arithmetic
        trivial
      · next apart => exact refuses_orRefuse _ fun m n first second => (apart m n first second).elim

/-- An item of something empty is asked for, at a position that is no number and hence not out of
bounds. -/
def MissesItem (container position : Value) : Prop :=
  (container = .list [] ∨ ∃ quoted, container = .text quoted ∧ Text.unquote quoted = "") ∧
    ∃ n, position = .number n ∧ n.parts = .nan

theorem truncate_eq_nan_iff {n : Number} : n.truncate = .nan ↔ n.parts = .nan := by
  unfold Number.truncate
  split <;> simp_all

theorem select_eq_crash_iff {α : Type} {items : List α} {position : Number.Whole} :
    select items position = .error .crash ↔ items = [] ∧ position = .nan := by
  unfold select selectIndex
  cases position with
  | nan => cases items <;> simp
  | infinite negative => simp
  | whole negative magnitude =>
      dsimp only
      by_cases outside :
          (negative && decide (magnitude ≠ 0) || decide (items.length ≤ magnitude)) = true
      · rw [if_pos outside]
        simp
      · have inside : magnitude < items.length := by
          simp only [Bool.or_eq_true, decide_eq_true_eq, not_or, Nat.not_le] at outside
          exact outside.2
        rw [if_neg outside]
        simp [inside]

theorem index_eq_crash_iff {container position : Value} :
    index container position = .error .crash ↔ MissesItem container position := by
  unfold MissesItem
  cases position with
  | number n =>
      cases container with
      | list items => simp [index, select_eq_crash_iff, truncate_eq_nan_iff]
      | text quoted =>
          have crashes : index (.text quoted) (.number n) = .error .crash ↔
              select (Text.unquote quoted).toList n.truncate = .error .crash := by
            dsimp only [index]
            cases select (Text.unquote quoted).toList n.truncate <;>
              simp [bind, Except.bind, pure, Except.pure]
          simp [crashes, select_eq_crash_iff, truncate_eq_nan_iff]
      | number _ | function _ | none => simp [index]
  | text _ | function _ | list _ | none => simp [index]

theorem binary_eq_crash_iff {operator : BinaryOperator} {left right : Value} :
    binary operator left right = .error .crash ↔ operator = .index ∧ MissesItem left right := by
  by_cases indexing : operator = .index
  · subst indexing
    rw [binary, index_eq_crash_iff]
    exact (and_iff_right rfl).symm
  · have plain := isPlain_binary indexing left right
    constructor
    · intro crashed
      rw [crashed] at plain
      exact plain.elim
    · exact fun misses => absurd misses.1 indexing

end Value

theorem Trait.Admits.binary {trait : Trait} {good : Value → Prop} (admits : trait.Admits good)
    {operator : BinaryOperator} {left right value : Value} (goodLeft : good left)
    (made : Value.binary operator left right = .ok value) : good value := by
  by_cases indexing : operator = .index
  · subst indexing
    rcases Value.index_eq_ok made with ⟨items, rfl, member⟩ | ⟨content, rfl⟩
    · exact admits.list.mp goodLeft value member
    · exact admits.content content
  · have plain := Value.isPlain_binary indexing left right
    rw [made] at plain
    cases value with
    | number n => exact admits.number n
    | text raw =>
        obtain ⟨content, rfl⟩ := plain
        exact admits.content content
    | none | function _ | list _ => exact plain.elim

theorem Value.every_binary {trait : Trait} {operator : BinaryOperator} {left right value : Value}
    (every : left.Every trait) (made : Value.binary operator left right = .ok value) :
    value.Every trait :=
  Trait.admits_every.binary every made

end Easel
