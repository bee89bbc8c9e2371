import Easel.Proofs.Parser.Depth
import Easel.Proofs.Parser.Promptness

/-!
Which token a complaint is about. Tokens are viable if more tokens of some text can stand behind
them so that all of them together are a program, however deep. A complaint that points at a token
points at the first one with which the tokens are no longer viable. At the end of the tokens there
is a complaint without a place, and then all tokens are viable but are not a program themselves.
-/

namespace Easel

def Word.token (word : Word) : Token :=
  ⟨word.kind, word.lexeme, .start⟩

theorem Word.map_word_token (words : List Word) :
    (words.map Word.token).map Token.word = words := by
  rw [List.map_map]
  exact List.map_id words

namespace Parser

open Grammar
open Token (Takes)

variable {tokens : List Token} {error : SyntaxError}

def Accepted (tokens : List Token) : Prop :=
  ∃ room program, Program.ofTokensWithin room tokens = .ok program

/-- Tokens of a text can make a program of the tokens. -/
def Viable (tokens : List Token) : Prop :=
  ∃ more, (∀ token ∈ more, token.IsLexed) ∧ Accepted (tokens ++ more)

theorem viable_nil : Viable [] :=
  ⟨[], nofun, 0, [], rfl⟩

theorem Viable.of_append {front back : List Token} (viable : Viable (front ++ back))
    (lexed : ∀ token ∈ back, token.IsLexed) : Viable front := by
  obtain ⟨more, lexedMore, accepted⟩ := viable
  refine ⟨back ++ more, List.forall_mem_append.mpr ⟨lexed, lexedMore⟩, ?_⟩
  rwa [← List.append_assoc]

theorem viable_of_fillable {depth : Nat} (lexed : ∀ token ∈ tokens, token.IsLexed)
    (fillable : Fillable
      ((spelled (Sequence (phrases depth).statement)).leftQuotient (tokens.map Token.word))) :
    Viable tokens := by
  obtain ⟨words, ⟨program, derived⟩, lexedWords⟩ := fillable
  have lexedMore : ∀ token ∈ words.map Word.token, token.IsLexed := by
    intro token member
    obtain ⟨word, memberWord, rfl⟩ := List.mem_map.mp member
    exact Token.isLexed_of_word (lexedWords word memberWord)
  refine ⟨words.map Word.token, lexedMore, depth, program, ?_⟩
  apply ofTokensWithin_complete (List.forall_mem_append.mpr ⟨lexed, lexedMore⟩)
  rw [List.map_append, Word.map_word_token]
  exact derived

theorem Accepted.read (accepted : Accepted tokens) (lexed : ∀ token ∈ tokens, token.IsLexed)
    (rounds room : Nat) :
    ∃ moreRounds moreRoom program, rounds ≤ moreRounds ∧ room ≤ moreRoom ∧
      statementsUntilEnd (statementWithin moreRounds moreRoom) moreRounds [] tokens =
        .ok (program, []) := by
  obtain ⟨depth, program, read⟩ := accepted
  have derived := (ofTokensWithin_sound lexed read).deepen (Nat.le_max_right room depth)
  have legible : Legible (max rounds tokens.length) tokens := ⟨Nat.le_max_right _ _, lexed⟩
  have taken : Takes tokens (tokens.map Token.word) [] := ⟨tokens, by simp, rfl⟩
  exact ⟨_, _, _, Nat.le_max_left _ _, Nat.le_max_left _ _, statementsUntilEnd_complete
    (complete_within _ (max room depth)) derived legible legible.short taken⟩

theorem ofTokensWithin_eq_error_iff {room : Nat} :
    Program.ofTokensWithin room tokens = .error error ↔
      statementsUntilEnd (statementWithin tokens.length room) tokens.length [] tokens =
        .error error := by
  change (statementsUntilEnd _ _ [] tokens >>= fun pair => pure pair.1) = _ ↔ _
  cases statementsUntilEnd (statementWithin tokens.length room) tokens.length [] tokens with
  | error error => simp [bind, Except.bind]
  | ok pair => simp [bind, Except.bind, pure, Except.pure]

/-- What a parser with room enough and rounds enough does with tokens that begin like the ones
that are refused. -/
inductive Failure (tokens : List Token) (again : Parser (List Statement)) : SyntaxError → Prop
  | refused (taken following : List Token) {token : Token} {expected : Expectation}
      (split : tokens = taken ++ token :: following) (viable : Viable taken)
      (refuses : ∀ rest, again (taken ++ token :: rest) = .error (.atToken token expected)) :
      Failure tokens again (.atToken token expected)
  | ended {expected : Expectation} (viable : Viable tokens) :
      Failure tokens again (.unexpectedEnd expected)
  | tooDeep {position : Position} {limit : Nat} : Failure tokens again (.tooDeep position limit)

theorem failure_of_failed (lexed : ∀ token ∈ tokens, token.IsLexed)
    (failed : Program.ofTokens tokens = .error error) {rounds room : Nat}
    (atMost : tokens.length ≤ rounds) (roomier : nestingLimit ≤ room) :
    Failure tokens (statementsUntilEnd (statementWithin rounds room) rounds []) error := by
  have prompt := statementsUntilEnd_prompt (tracked_within atMost roomier) (Nat.le_refl _) atMost []
  have tracks := prompt.tracks ⟨Nat.le_refl _, lexed⟩
  rw [Tracks, ofTokensWithin_eq_error_iff.mp failed] at tracks
  generalize result : Except.error error = failure at tracks
  cases tracks with
  | accepted => cases result
  | refused taken following split _ fillable refuses =>
      cases result
      have lexedTaken : ∀ token ∈ taken, token.IsLexed := fun token member =>
        lexed token (split ▸ List.mem_append_left _ member)
      exact .refused taken following split (viable_of_fillable lexedTaken fillable) refuses
  | ended _ fillable =>
      cases result
      exact .ended (viable_of_fillable lexed fillable)
  | tooDeep =>
      cases result
      exact .tooDeep

theorem exists_first_hopeless (hopeless : ¬Viable tokens) :
    ∃ index, Viable (tokens.take index) ∧ ¬Viable (tokens.take (index + 1)) := by
  by_contra none
  have viable : ∀ index, Viable (tokens.take index) := by
    intro index
    induction index with
    | zero => exact viable_nil
    | succ index induction =>
        by_contra next
        exact none ⟨index, induction, next⟩
  have whole := viable tokens.length
  rw [List.take_length] at whole
  exact hopeless whole

section Refusals

variable (lexed : ∀ token ∈ tokens, token.IsLexed)
  (failed : Program.ofTokens tokens = .error error)
  (refused : ∀ expected, error ≠ .unexpectedEnd expected)
  (shallow : ∀ position limit, error ≠ .tooDeep position limit)

include lexed failed refused shallow

/-- If a program begins with some of the tokens, none of them is the one that is refused. -/
theorem refusal_behind_accepted {front more : List Token} (begins : ∃ rest, tokens = front ++ rest)
    (lexedMore : ∀ token ∈ more, token.IsLexed) (accepted : Accepted (front ++ more)) :
    ∃ taken following token expected, tokens = taken ++ token :: following ∧
      error = .atToken token expected ∧ Viable taken ∧ front.length ≤ taken.length := by
  obtain ⟨rest, whole⟩ := begins
  have lexedFront : ∀ token ∈ front, token.IsLexed := fun token member =>
    lexed token (whole ▸ List.mem_append_left rest member)
  obtain ⟨rounds, room, program, atMost, roomier, read⟩ :=
    accepted.read (List.forall_mem_append.mpr ⟨lexedFront, lexedMore⟩) tokens.length nestingLimit
  cases failure_of_failed lexed failed atMost roomier with
  | ended => exact absurd rfl (refused _)
  | tooDeep => exact absurd rfl (shallow _ _)
  | @refused taken following token expected split viable refuses =>
      refine ⟨taken, following, token, expected, split, rfl, viable, ?_⟩
      by_contra shorter
      -- Otherwise the refused token stands in the program too, with the same tokens before it.
      obtain ⟨between, rfl⟩ : ∃ between, front = taken ++ token :: between := by
        have same := split.symm.trans whole
        obtain ⟨between, rfl, cut⟩ | ⟨between, rfl, -⟩ := List.append_eq_append_iff.mp same
        · cases between with
          | nil => simp at shorter
          | cons head between =>
              rw [List.cons_append] at cut
              obtain ⟨rfl, -⟩ := List.cons.inj cut
              exact ⟨between, rfl⟩
        · simp at shorter
      rw [List.append_assoc, List.cons_append, refuses] at read
      cases read

theorem not_viable_of_refused : ¬Viable tokens := by
  rintro ⟨more, lexedMore, accepted⟩
  obtain ⟨taken, following, token, expected, split, -, -, behind⟩ :=
    refusal_behind_accepted lexed failed refused shallow ⟨[], (List.append_nil tokens).symm⟩
      lexedMore accepted
  have total := congrArg List.length split
  simp only [List.length_append, List.length_cons] at total
  omega

theorem error_eq_atToken_first_hopeless :
    ∃ index token expected, tokens[index]? = some token ∧ error = .atToken token expected ∧
      Viable (tokens.take index) ∧ ¬Viable (tokens.take (index + 1)) := by
  obtain ⟨index, viable, hopeless⟩ :=
    exists_first_hopeless (not_viable_of_refused lexed failed refused shallow)
  obtain ⟨more, lexedMore, accepted⟩ := id viable
  obtain ⟨taken, following, token, expected, split, pointed, viableTaken, behind⟩ :=
    refusal_behind_accepted lexed failed refused shallow
      ⟨tokens.drop index, (List.take_append_drop index tokens).symm⟩ lexedMore accepted
  have total := congrArg List.length split
  simp only [List.length_append, List.length_cons] at total
  rw [List.length_take] at behind
  have same : index = taken.length := by
    by_contra different
    have within : index + 1 ≤ taken.length := by omega
    apply hopeless
    rw [split, List.take_append_of_le_length within]
    rw [← List.take_append_drop (index + 1) taken] at viableTaken
    apply viableTaken.of_append
    intro front member
    exact lexed front (split ▸ List.mem_append_left _ (List.mem_of_mem_drop member))
  subst same
  exact ⟨taken.length, token, expected, by simp [split], pointed, viable, hopeless⟩

end Refusals

theorem unexpectedEnd_viable {expected : Expectation} (lexed : ∀ token ∈ tokens, token.IsLexed)
    (failed : Program.ofTokens tokens = .error (.unexpectedEnd expected)) :
    Viable tokens ∧ ¬Accepted tokens := by
  constructor
  · generalize ended : SyntaxError.unexpectedEnd expected = error at failed
    cases failure_of_failed lexed failed (Nat.le_refl _) (Nat.le_refl _) with
    | refused _ _ _ _ _ =>
        rw [SyntaxError.atToken] at ended
        split at ended <;> cases ended
    | ended viable => exact viable
    | tooDeep => cases ended
  · rintro ⟨room, program, accepted⟩
    rcases ofTokens_of_isProgram lexed (ofTokensWithin_sound lexed accepted) with
      read | ⟨position, stopped⟩
    · rw [failed] at read
      cases read
    · rw [failed] at stopped
      cases stopped

/-- A complaint that points at a token points at the first one with which the tokens stop being the
beginning of a program. A number is never at fault, and of a text that is nested too deep nothing is
said. -/
theorem error_points_at_first_hopeless_token (tokens : List Token)
    (lexed : ∀ token ∈ tokens, token.IsLexed) (error : SyntaxError)
    (failed : Program.ofTokens tokens = .error error) :
    match error with
    | .unexpected position lexeme _ =>
        ∃ index token, tokens[index]? = some token ∧ token.position = position ∧
          token.lexeme = lexeme ∧ token.kind ≠ .illegal ∧ Viable (tokens.take index) ∧
          ¬Viable (tokens.take (index + 1))
    | .illegal position lexeme =>
        ∃ index token, tokens[index]? = some token ∧ token.position = position ∧
          token.lexeme = lexeme ∧ token.kind = .illegal ∧ Viable (tokens.take index) ∧
          ¬Viable (tokens.take (index + 1))
    | .unexpectedEnd _ => Viable tokens ∧ ¬Accepted tokens
    | .invalidNumber _ _ => False
    | .tooDeep _ _ => True := by
  cases error with
  | unexpected position lexeme expected =>
      obtain ⟨index, token, _, found, pointed, viable, hopeless⟩ :=
        error_eq_atToken_first_hopeless lexed failed nofun nofun
      rw [SyntaxError.atToken] at pointed
      split at pointed
      · cases pointed
      · next legal =>
          cases pointed
          exact ⟨index, token, found, rfl, rfl, legal, viable, hopeless⟩
  | illegal position lexeme =>
      obtain ⟨index, token, _, found, pointed, viable, hopeless⟩ :=
        error_eq_atToken_first_hopeless lexed failed nofun nofun
      rw [SyntaxError.atToken] at pointed
      split at pointed
      · next illegal =>
          cases pointed
          exact ⟨index, token, found, rfl, rfl, illegal, viable, hopeless⟩
      · cases pointed
  | invalidNumber position lexeme =>
      obtain ⟨_, token, _, -, pointed, -, -⟩ :=
        error_eq_atToken_first_hopeless lexed failed nofun nofun
      rw [SyntaxError.atToken] at pointed
      split at pointed <;> cases pointed
  | unexpectedEnd expected => exact unexpectedEnd_viable lexed failed
  | tooDeep position limit => trivial

theorem error_points_at_first_hopeless_token_assign :
    let tokens := Token.tokenize "for (i = 0, a + b = 3"
    (∀ token ∈ tokens, token.IsLexed) ∧
      Program.ofTokens tokens = .error (.unexpected ⟨1, 19⟩ "=" (.symbol ",")) ∧
      ∃ index token, tokens[index]? = some token ∧ token.position = ⟨1, 19⟩ ∧
        token.lexeme = "=" ∧ token.kind ≠ .illegal ∧ Viable (tokens.take index) ∧
        ¬Viable (tokens.take (index + 1)) := by
  intro tokens
  have lexed : ∀ token ∈ tokens, token.IsLexed := fun _ => Token.isLexed_of_mem_tokenize
  have complaint : (match Program.ofTokens tokens with
      | .error error => decide (error = .unexpected ⟨1, 19⟩ "=" (.symbol ","))
      | .ok _ => false) = true := by decide +kernel
  have failed : Program.ofTokens tokens = .error (.unexpected ⟨1, 19⟩ "=" (.symbol ",")) := by
    split at complaint
    · next error read => rw [read, of_decide_eq_true complaint]
    · cases complaint
  exact ⟨lexed, failed, error_points_at_first_hopeless_token tokens lexed _ failed⟩

end Parser

end Easel
