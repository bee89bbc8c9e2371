import Easel.Proofs.Grammar.Nesting
import Easel.Proofs.Parser.Compatibility
import Easel.Proofs.Parser.Completeness

/-!
Less room for nesting changes nothing else. A reader with less room either gives up because it
would have to go too deep, or does the same as one with more room. So the words of a program of
whatever depth are read as that program, or refused as too deep, and never in another way.
-/

namespace Easel.Parser

open Grammar

/-- The reader does what the deeper one does, unless it gives up for lack of room. -/
def Shallower {α : Type} (reader deeper : Parser α) : Prop :=
  ∀ tokens, (∃ position, reader tokens = .error (.tooDeep position nestingLimit)) ∨
    reader tokens = deeper tokens

theorem Shallower.refl {α : Type} (reader : Parser α) : Shallower reader reader :=
  fun _ => .inr rfl

theorem Shallower.bind {α β : Type} {reader deeper : Parser α} {next nextDeeper : α → Parser β}
    (first : Shallower reader deeper) (second : ∀ value, Shallower (next value) (nextDeeper value)) :
    Shallower (reader >>= next) (deeper >>= nextDeeper) := by
  intro tokens
  simp only [bind_apply]
  rcases first tokens with stopped | same
  · obtain ⟨position, error⟩ := stopped
    left
    exact ⟨position, by rw [error]⟩
  · rw [same]
    cases deeper tokens with
    | error error => exact .inr rfl
    | ok result => exact second result.1 result.2

theorem shallower_look {α : Type} {look : Parser (Option Token)}
    {next nextDeeper : Option Token → Parser α} (atEnd : Shallower (next none) (nextDeeper none))
    (atToken : ∀ token token', token = token' → Shallower (next (some token)) (nextDeeper (some token'))) :
    Shallower (look >>= next) (look >>= nextDeeper) := by
  apply Shallower.bind (.refl look)
  intro seen
  cases seen with
  | none => exact atEnd
  | some token => exact atToken token token rfl

theorem compatible_shallower : Compatible Eq Shallower where
  word := congrArg Token.word
  pure _ := .refl _
  bind := Shallower.bind
  unexpectedEnd _ := .refl _
  atToken _ alike := alike ▸ .refl _
  invalidNumber alike _ _ := alike ▸ .refl _
  current? := shallower_look
  following? := shallower_look
  skip := .refl _

theorem shallower_tooDeep {α : Type} (deeper : Parser α) : Shallower tooDeep deeper :=
  fun _ => .inl ⟨_, rfl⟩

theorem shallower_within (rounds : Nat) {room more : Nat} (atMost : room ≤ more) :
    Shallower (statementWithin rounds room) (statementWithin rounds more) ∧
      ∀ precedence, Shallower (expressionWithin rounds room precedence)
        (expressionWithin rounds more precedence) := by
  rcases Nat.exists_eq_add_of_le atMost with ⟨extra, rfl⟩
  exact compatible_shallower.within rounds extra (shallower_tooDeep _)
    (fun _ => shallower_tooDeep _) room

theorem ofTokensWithin_eq_of_le (tokens : List Token) {room more : Nat} (atMost : room ≤ more) :
    (∃ position, Program.ofTokensWithin room tokens = .error (.tooDeep position nestingLimit)) ∨
      Program.ofTokensWithin room tokens = Program.ofTokensWithin more tokens := by
  have statements := compatible_shallower.statementsUntilEnd
    (shallower_within tokens.length atMost).1 tokens.length []
  rcases statements tokens with stopped | same
  · obtain ⟨position, error⟩ := stopped
    left
    refine ⟨position, ?_⟩
    simp only [Program.ofTokensWithin, StateT.run, error]
    rfl
  · right
    simp only [Program.ofTokensWithin, StateT.run, same]

/-- The words of a program are read as that program, or refused as too deep. -/
theorem ofTokens_of_isProgram {tokens : List Token} (lexed : ∀ token ∈ tokens, token.IsLexed)
    {depth : Nat} {program : Program} (derived : IsProgram depth (tokens.map Token.word) program) :
    Program.ofTokens tokens = .ok program ∨
      ∃ position, Program.ofTokens tokens = .error (.tooDeep position nestingLimit) := by
  have read := ofTokensWithin_complete lexed (derived.deepen (Nat.le_max_right nestingLimit depth))
  rcases ofTokensWithin_eq_of_le tokens (Nat.le_max_left nestingLimit depth) with stopped | same
  · exact .inr stopped
  · left
    rw [Program.ofTokens, same, read]

end Easel.Parser
