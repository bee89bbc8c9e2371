import Easel.Proofs.Grammar
import Easel.Syntax.Parser

/-!
What it takes for a reader to succeed. A success is described by the words that were taken
from the front of the tokens, and the success of a reader that is put together from others
by the successes of its parts.
-/

namespace Easel

/-- The tokens begin with the given words, and the rest is behind them. -/
def Token.Takes (tokens : List Token) (words : List Word) (rest : List Token) : Prop :=
  ∃ taken, tokens = taken ++ rest ∧ taken.map Token.word = words

namespace Token.Takes

variable {tokens middle rest : List Token} {words more : List Word}

theorem nil (tokens : List Token) : Takes tokens [] tokens :=
  ⟨[], rfl, rfl⟩

theorem single (token : Token) (rest : List Token) : Takes (token :: rest) [token.word] rest :=
  ⟨[token], rfl, rfl⟩

theorem append (first : Takes tokens words middle) (second : Takes middle more rest) :
    Takes tokens (words ++ more) rest := by
  obtain ⟨taken, rfl, rfl⟩ := first
  obtain ⟨takenNext, rfl, rfl⟩ := second
  exact ⟨taken ++ takenNext, by simp, by simp⟩

theorem cons {word : Word} (first : Takes tokens [word] middle) (second : Takes middle more rest) :
    Takes tokens (word :: more) rest :=
  first.append second

theorem split (taken : Takes tokens (words ++ more) rest) :
    ∃ middle, Takes tokens words middle ∧ Takes middle more rest := by
  obtain ⟨all, rfl, spelled⟩ := taken
  obtain ⟨front, back, rfl, frontWords, backWords⟩ := List.map_eq_append_iff.mp spelled
  exact ⟨back ++ rest, ⟨front, by simp, frontWords⟩, ⟨back, rfl, backWords⟩⟩

theorem split_first {word : Word} (taken : Takes tokens (word :: more) rest) :
    ∃ middle, Takes tokens [word] middle ∧ Takes middle more rest :=
  split (show Takes tokens ([word] ++ more) rest from taken)

theorem uncons {word : Word} (taken : Takes tokens (word :: more) rest) :
    ∃ token following, tokens = token :: following ∧ token.word = word ∧
      Takes following more rest := by
  obtain ⟨all, rfl, spelled⟩ := taken
  obtain ⟨token, following, rfl, rfl, rfl⟩ := List.map_eq_cons_iff.mp spelled
  exact ⟨token, following ++ rest, rfl, rfl, following, rfl, rfl⟩

theorem length (taken : Takes tokens words rest) : tokens.length = words.length + rest.length := by
  obtain ⟨all, rfl, rfl⟩ := taken
  simp

theorem length_lt (taken : Takes tokens words rest) (nonempty : words ≠ []) :
    rest.length < tokens.length := by
  have total := taken.length
  have positive := List.length_pos_iff.mpr nonempty
  omega

theorem map_word (taken : Takes tokens words rest) :
    tokens.map Token.word = words ++ rest.map Token.word := by
  obtain ⟨all, rfl, rfl⟩ := taken
  exact List.map_append

theorem words_eq {front : List Token} (taken : Takes tokens words rest)
    (split : tokens = front ++ rest) : front.map Token.word = words := by
  obtain ⟨all, same, rfl⟩ := taken
  rw [List.append_cancel_right (split.symm.trans same)]

theorem mem_of_mem (taken : Takes tokens words rest) {token : Token} (member : token ∈ rest) :
    token ∈ tokens := by
  obtain ⟨all, rfl, -⟩ := taken
  exact List.mem_append_right all member

theorem single_iff {word : Word} :
    Takes tokens [word] rest ↔ ∃ token, tokens = token :: rest ∧ token.word = word := by
  constructor
  · intro taken
    rcases taken with ⟨all, rfl, spelled⟩
    obtain ⟨token, rfl, rfl⟩ := List.map_eq_singleton_iff.mp spelled
    exact ⟨token, rfl, rfl⟩
  · intro begun
    rcases begun with ⟨token, rfl, rfl⟩
    exact single token rest

theorem cons_left_iff {token : Token} {word : Word} :
    Takes (token :: tokens) [word] rest ↔ token.word = word ∧ rest = tokens := by
  rw [single_iff]
  constructor
  · intro begun
    rcases begun with ⟨_, ⟨⟩, spelled⟩
    exact ⟨spelled, rfl⟩
  · intro same
    rcases same with ⟨spelled, rfl⟩
    exact ⟨token, rfl, spelled⟩

theorem headWord? {word : Word} (taken : Takes tokens (word :: more) rest) :
    tokens.head?.map Token.word = some word := by
  obtain ⟨token, following, rfl, spelled, -⟩ := taken.uncons
  simp [spelled]

theorem of_headWord? {word : Word}
    (head : tokens.head?.map Token.word = some word) : ∃ rest, Takes tokens [word] rest := by
  cases tokens with
  | nil => simp at head
  | cons token following =>
      have spelled : token.word = word := by simpa using head
      exact ⟨following, spelled ▸ single token following⟩

theorem single_fields {word : Word}
    (taken : Takes tokens [word] rest) :
    ∃ token, tokens = token :: rest ∧ token.kind = word.kind ∧ token.lexeme = word.lexeme := by
  obtain ⟨token, same, spelled⟩ := single_iff.mp taken
  exact ⟨token, same, congrArg Word.kind spelled, congrArg Word.lexeme spelled⟩

end Token.Takes

theorem Token.isExactly_iff {token : Token} {kind : Token.Kind} {lexeme : String} :
    token.isExactly kind lexeme = true ↔ token.word = ⟨kind, lexeme⟩ := by
  simp [Token.isExactly, Token.word]

theorem Token.isSymbol_iff {token : Token} {lexeme : String} :
    token.isSymbol lexeme = true ↔ token.word = .symbol lexeme :=
  Token.isExactly_iff

theorem Token.isKeyword_iff {token : Token} {lexeme : String} :
    token.isKeyword lexeme = true ↔ token.word = .keyword lexeme :=
  Token.isExactly_iff

theorem Token.isIdentifier_iff {token : Token} :
    token.isIdentifier = true ↔ token.word = .identifier token.lexeme := by
  simp [Token.isIdentifier, Token.word, Word.identifier]

namespace Parser

open Token (Takes)

variable {α β : Type} {tokens middle rest : List Token}

theorem bind_apply (reader : Parser α) (next : α → Parser β) (tokens : List Token) :
    (reader >>= next) tokens =
      match reader tokens with
      | .ok (value, middle) => next value middle
      | .error error => .error error := by
  change (reader tokens >>= fun result => next result.1 result.2) = _
  cases reader tokens <;> rfl

theorem bind_eq_ok_iff {reader : Parser α} {next : α → Parser β} {result : β} :
    (reader >>= next) tokens = .ok (result, rest) ↔
      ∃ value middle, reader tokens = .ok (value, middle) ∧
        next value middle = .ok (result, rest) := by
  rw [bind_apply]
  cases reader tokens with
  | ok pair =>
      obtain ⟨value, middle⟩ := pair
      constructor
      · intro success
        exact ⟨value, middle, rfl, success⟩
      · intro read
        rcases read with ⟨_, _, ⟨⟩, success⟩
        exact success
  | error error => simp

theorem pure_eq_ok_iff {value result : α} :
    (pure value : Parser α) tokens = .ok (result, rest) ↔ result = value ∧ rest = tokens := by
  change Except.ok (value, tokens) = _ ↔ _
  simp [eq_comm]

theorem throw_eq_ok_iff {error : SyntaxError} {result : α} :
    (throw error : Parser α) tokens = .ok (result, rest) ↔ False := by
  change Except.error error = _ ↔ _
  simp

theorem bind_pure_eq_ok_iff {reader : Parser α} {change : α → β} {result : β} :
    (reader >>= fun value => pure (change value)) tokens = .ok (result, rest) ↔
      ∃ value, reader tokens = .ok (value, rest) ∧ result = change value := by
  simp only [bind_eq_ok_iff, pure_eq_ok_iff]
  constructor
  · intro read
    rcases read with ⟨value, middle, success, rfl, rfl⟩
    exact ⟨value, success, rfl⟩
  · intro read
    rcases read with ⟨value, success, rfl⟩
    exact ⟨value, rest, success, rfl, rfl⟩

theorem map_eq_ok_iff {reader : Parser α} {change : α → β} {result : β} :
    (change <$> reader) tokens = .ok (result, rest) ↔
      ∃ value, reader tokens = .ok (value, rest) ∧ result = change value := by
  rw [map_eq_pure_bind]
  exact bind_pure_eq_ok_iff

theorem current?_bind (next : Option Token → Parser α) :
    (current? >>= next) tokens = next tokens.head? tokens := rfl

theorem following?_bind (next : Option Token → Parser α) :
    (following? >>= next) tokens = next tokens[1]? tokens := rfl

theorem skip_bind (next : Unit → Parser α) (token : Token) :
    (skip >>= next) (token :: tokens) = next () tokens := rfl

theorem expect_cons (expected : Expectation) (test : Token → Bool) (token : Token)
    (rest : List Token) :
    expect expected test (token :: rest) =
      if test token then .ok (token, rest) else .error (SyntaxError.atToken token expected) := by
  change (if test token = true then _ else _ : Parser Token) _ = _
  split <;> rfl

theorem expect_eq_ok_iff {expected : Expectation} {test : Token → Bool} {token : Token} :
    expect expected test tokens = .ok (token, rest) ↔
      tokens = token :: rest ∧ test token = true := by
  cases tokens with
  | nil =>
      change Except.error _ = _ ↔ _
      simp
  | cons head tail =>
      rw [expect_cons]
      by_cases accepted : test head = true
      · rw [if_pos accepted]
        constructor
        · intro taken
          cases taken
          exact ⟨rfl, accepted⟩
        · intro ⟨same, _⟩
          cases same
          rfl
      · rw [if_neg accepted]
        constructor
        · intro taken
          cases taken
        · intro ⟨same, passed⟩
          cases same
          exact absurd passed accepted

theorem expectSymbol_eq_ok_iff {lexeme : String} {result : Unit} :
    expectSymbol lexeme tokens = .ok (result, rest) ↔ Takes tokens [.symbol lexeme] rest := by
  change (Function.const Token () <$> expect (.symbol lexeme) (·.isSymbol lexeme)) tokens = _ ↔ _
  simp only [map_eq_ok_iff, expect_eq_ok_iff, Token.isSymbol_iff, Token.Takes.single_iff, and_true]

theorem expectIdentifier_eq_ok_iff {name : String} :
    expectIdentifier tokens = .ok (name, rest) ↔ Takes tokens [.identifier name] rest := by
  unfold expectIdentifier
  simp only [map_eq_ok_iff, expect_eq_ok_iff, Token.isIdentifier_iff, Token.Takes.single_iff]
  constructor
  · intro read
    rcases read with ⟨token, ⟨rfl, identified⟩, rfl⟩
    exact ⟨token, rfl, identified⟩
  · intro taken
    rcases taken with ⟨token, rfl, identified⟩
    have named : token.lexeme = name := congrArg Word.lexeme identified
    subst named
    exact ⟨token, ⟨rfl, identified⟩, rfl⟩

theorem expectSeparator_eq_ok_iff {closing : String} {closes : Bool} (apart : closing ≠ ",") :
    expectSeparator closing tokens = .ok (closes, rest) ↔
      Takes tokens [.symbol (if closes then closing else ",")] rest := by
  unfold expectSeparator
  simp only [bind_eq_ok_iff, expect_eq_ok_iff, pure_eq_ok_iff, Token.Takes.single_iff,
    Bool.or_eq_true]
  constructor
  · intro read
    rcases read with ⟨token, middle, ⟨rfl, accepted⟩, rfl, rfl⟩
    refine ⟨token, rfl, ?_⟩
    by_cases closed : token.isSymbol closing = true
    · rw [if_pos closed]
      exact Token.isSymbol_iff.mp closed
    · rw [if_neg closed]
      exact Token.isSymbol_iff.mp (accepted.resolve_right closed)
  · intro taken
    rcases taken with ⟨token, rfl, spelled⟩
    cases closes with
    | true =>
        have closed : token.isSymbol closing = true := Token.isSymbol_iff.mpr spelled
        exact ⟨token, rest, ⟨rfl, .inr closed⟩, closed.symm, rfl⟩
    | false =>
        have separated : token.word = .symbol "," := spelled
        have open' : token.isSymbol closing = false := by
          rw [Bool.eq_false_iff, ne_eq, Token.isSymbol_iff, separated]
          intro same
          exact apart (congrArg Word.lexeme same).symm
        exact ⟨token, rest, ⟨rfl, .inl (Token.isSymbol_iff.mpr separated)⟩, open'.symm, rfl⟩

variable {inner : Inner}

theorem condition_eq_ok_iff {tree : Expression} :
    condition inner tokens = .ok (tree, rest) ↔
      ∃ first second, Takes tokens [.symbol "("] first ∧
        inner.expression .lowest first = .ok (tree, second) ∧ Takes second [.symbol ")"] rest := by
  simp only [condition, bind_eq_ok_iff, pure_eq_ok_iff, expectSymbol_eq_ok_iff]
  grind

theorem body_eq_ok_iff {trees : List Statement} :
    body inner tokens = .ok (trees, rest) ↔
      ∃ middle, Takes tokens [.symbol "\x7b"] middle ∧
        statementsUntilBrace inner inner.rounds [] middle = .ok (trees, rest) := by
  simp only [body, bind_eq_ok_iff, expectSymbol_eq_ok_iff, exists_const]

theorem statementsUntilBrace_succ_eq_ok_iff {rounds : Nat} {found trees : List Statement} :
    statementsUntilBrace inner (rounds + 1) found tokens = .ok (trees, rest) ↔
      Takes tokens [.symbol "\x7d"] rest ∧ trees = found.reverse ∨
      tokens ≠ [] ∧ tokens.head?.map Token.word ≠ some (.symbol "\x7d") ∧
        ∃ tree middle, inner.statement tokens = .ok (tree, middle) ∧
          statementsUntilBrace inner rounds (tree :: found) middle = .ok (trees, rest) := by
  rw [statementsUntilBrace, current?_bind]
  cases tokens with
  | nil => simp [throw_eq_ok_iff, Token.Takes.single_iff]
  | cons token following =>
      by_cases closed : token.word = .symbol "\x7d"
      · simp [Token.isSymbol_iff, closed, skip_bind, pure_eq_ok_iff, Token.Takes.cons_left_iff,
          and_comm]
      · simp [Token.isSymbol_iff, closed, bind_eq_ok_iff, Token.Takes.cons_left_iff]

theorem itemsUntil_succ_eq_ok_iff {item : Parser α} {closing : String} {rounds : Nat}
    {found items : List α} (apart : closing ≠ ",") :
    itemsUntil item closing (rounds + 1) found tokens = .ok (items, rest) ↔
      ∃ next first, item tokens = .ok (next, first) ∧
        (Takes first [.symbol closing] rest ∧ items = (next :: found).reverse ∨
          ∃ second, Takes first [.symbol ","] second ∧
            itemsUntil item closing rounds (next :: found) second = .ok (items, rest)) := by
  simp only [itemsUntil, bind_eq_ok_iff, expectSeparator_eq_ok_iff apart, Bool.exists_bool,
    Bool.false_eq_true, if_false, if_true, pure_eq_ok_iff]
  grind

theorem listUntil_eq_ok_iff {item : Parser α} {closing : String} {rounds : Nat}
    {items : List α} :
    listUntil item closing rounds tokens = .ok (items, rest) ↔
      Takes tokens [.symbol closing] rest ∧ items = [] ∨
      tokens.head?.map Token.word ≠ some (.symbol closing) ∧
        itemsUntil item closing rounds [] tokens = .ok (items, rest) := by
  rw [listUntil, current?_bind]
  cases tokens with
  | nil => simp [Token.Takes.single_iff]
  | cons token following =>
      by_cases closed : token.word = .symbol closing
      · simp [Token.isSymbol_iff, closed, skip_bind, pure_eq_ok_iff, Token.Takes.cons_left_iff,
          and_comm]
      · simp [Token.isSymbol_iff, closed, Token.Takes.cons_left_iff]

theorem alternatives_succ_eq_ok_iff {rounds : Nat} {tree : Alternatives} :
    alternatives inner (rounds + 1) tokens = .ok (tree, rest) ↔
      (∃ start first second test branch others, Takes tokens [.keyword "elif"] start ∧
        condition inner start = .ok (test, first) ∧ body inner first = .ok (branch, second) ∧
        alternatives inner rounds second = .ok (others, rest) ∧
        tree = .branch test branch others) ∨
      (∃ start branch, Takes tokens [.keyword "else"] start ∧
        body inner start = .ok (branch, rest) ∧ tree = .otherwise branch) ∨
      tokens.head?.map Token.word ≠ some (.keyword "elif") ∧
        tokens.head?.map Token.word ≠ some (.keyword "else") ∧ tree = .none ∧ rest = tokens := by
  rw [alternatives, current?_bind]
  cases tokens with
  | nil => simp [pure_eq_ok_iff, Token.Takes.single_iff]
  | cons token following =>
      by_cases another : token.word = .keyword "elif"
      · simp [Token.isKeyword_iff, another, skip_bind, bind_eq_ok_iff, map_eq_ok_iff,
          Token.Takes.cons_left_iff, Word.keyword]
        grind
      · by_cases final : token.word = .keyword "else"
        · simp [Token.isKeyword_iff, final, skip_bind, map_eq_ok_iff,
            Token.Takes.cons_left_iff, Word.keyword]
        · simp [Token.isKeyword_iff, another, final, pure_eq_ok_iff, Token.Takes.cons_left_iff]

theorem conditional_cons_eq_ok_iff {token : Token} {tree : Statement} :
    conditional inner (token :: tokens) = .ok (tree, rest) ↔
      ∃ first second test branch others, condition inner tokens = .ok (test, first) ∧
        body inner first = .ok (branch, second) ∧
        alternatives inner inner.rounds second = .ok (others, rest) ∧
        tree = .conditional test branch others := by
  simp only [conditional, skip_bind, bind_eq_ok_iff, pure_eq_ok_iff]
  grind

theorem whileLoop_cons_eq_ok_iff {token : Token} {tree : Statement} :
    whileLoop inner (token :: tokens) = .ok (tree, rest) ↔
      ∃ first test round, condition inner tokens = .ok (test, first) ∧
        body inner first = .ok (round, rest) ∧ tree = .whileLoop test round := by
  rw [whileLoop, skip_bind, bind_eq_ok_iff]
  simp only [bind_pure_eq_ok_iff, exists_and_left]
  exact exists_comm

theorem repeatLoop_cons_eq_ok_iff {token : Token} {tree : Statement} :
    repeatLoop inner (token :: tokens) = .ok (tree, rest) ↔
      ∃ first count round, condition inner tokens = .ok (count, first) ∧
        body inner first = .ok (round, rest) ∧ tree = .repeatLoop count round := by
  rw [repeatLoop, skip_bind, bind_eq_ok_iff]
  simp only [bind_pure_eq_ok_iff, exists_and_left]
  exact exists_comm

theorem foreachLoop_eq_ok_iff {tree : Statement} :
    foreachLoop inner tokens = .ok (tree, rest) ↔
      ∃ first second third fourth item items round, Takes tokens [.identifier item] first ∧
        Takes first [.symbol ":"] second ∧ inner.expression .lowest second = .ok (items, third) ∧
        Takes third [.symbol ")"] fourth ∧ body inner fourth = .ok (round, rest) ∧
        tree = .foreachLoop item items round := by
  simp only [foreachLoop, bind_eq_ok_iff, pure_eq_ok_iff, expectSymbol_eq_ok_iff,
    expectIdentifier_eq_ok_iff]
  grind

theorem foreachLoop_of_takes {item : String}
    (taken : Takes tokens [.identifier item, .symbol ":"] middle) :
    foreachLoop inner tokens =
      (inner.expression .lowest >>= fun items => expectSymbol ")" >>= fun _ =>
        body inner >>= fun round => pure (.foreachLoop item items round)) middle := by
  obtain ⟨first, named, colon⟩ := taken.split_first
  have separated : expectSymbol ":" first = .ok ((), middle) := expectSymbol_eq_ok_iff.mpr colon
  rw [foreachLoop, bind_apply, expectIdentifier_eq_ok_iff.mpr named]
  dsimp only
  rw [bind_apply, separated]

theorem countingLoop_eq_ok_iff {tree : Statement} :
    countingLoop inner tokens = .ok (tree, rest) ↔
      ∃ first second third fourth fifth sixth start test step round,
        inner.expression .lowest tokens = .ok (start, first) ∧ Takes first [.symbol ","] second ∧
        inner.expression .lowest second = .ok (test, third) ∧ Takes third [.symbol ","] fourth ∧
        inner.expression .lowest fourth = .ok (step, fifth) ∧ Takes fifth [.symbol ")"] sixth ∧
        body inner sixth = .ok (round, rest) ∧ tree = .forLoop start test step round := by
  simp only [countingLoop, bind_eq_ok_iff, pure_eq_ok_iff, expectSymbol_eq_ok_iff]
  grind

/-- Whether a loop that begins with `for (` runs over items. -/
def RunsOverItems (tokens : List Token) : Prop :=
  ∃ item following, Takes tokens [.identifier item, .symbol ":"] following

theorem runsOverItems_iff :
    (tokens.head?.any Token.isIdentifier && tokens[1]?.any (·.isSymbol ":")) = true ↔
      RunsOverItems tokens := by
  constructor
  · intro accepted
    match tokens with
    | [] => simp at accepted
    | [_] => simp at accepted
    | token :: colon :: following =>
        simp only [List.head?_cons, Option.any_some, List.getElem?_cons_succ, List.getElem?_cons_zero,
          Bool.and_eq_true, Token.isIdentifier_iff, Token.isSymbol_iff] at accepted
        exact ⟨token.lexeme, following, [token, colon], rfl, by simp [accepted.1, accepted.2]⟩
  · intro running
    rcases running with ⟨item, following, taken⟩
    obtain ⟨token, _, rfl, named, taken⟩ := taken.uncons
    obtain ⟨colon, _, rfl, separated, -⟩ := taken.uncons
    have identified : token.isIdentifier = true := by
      rw [Token.isIdentifier, show token.kind = .identifier from congrArg Word.kind named]
      rfl
    simp [identified, Token.isSymbol_iff.mpr separated]

/-- A loop from behind `for (` on. -/
def loopHead (inner : Inner) : Parser Statement := do
  let overItems := (← current?).any Token.isIdentifier && (← following?).any (·.isSymbol ":")
  if overItems then foreachLoop inner else countingLoop inner

theorem loopHead_of_runsOverItems (running : RunsOverItems tokens) :
    loopHead inner tokens = foreachLoop inner tokens := by
  rw [loopHead, current?_bind, following?_bind]
  exact congrFun (if_pos (runsOverItems_iff.mpr running)) tokens

theorem loopHead_of_not_runsOverItems (counting : ¬RunsOverItems tokens) :
    loopHead inner tokens = countingLoop inner tokens := by
  rw [loopHead, current?_bind, following?_bind]
  exact congrFun (if_neg (mt runsOverItems_iff.mp counting)) tokens

theorem forLoop_cons {token : Token} :
    forLoop inner (token :: tokens) = (expectSymbol "(" >>= fun _ => loopHead inner) tokens :=
  rfl

theorem forLoop_cons_eq_ok_iff {token : Token} {tree : Statement} :
    forLoop inner (token :: tokens) = .ok (tree, rest) ↔
      ∃ first, Takes tokens [.symbol "("] first ∧
        (RunsOverItems first ∧ foreachLoop inner first = .ok (tree, rest) ∨
          ¬RunsOverItems first ∧ countingLoop inner first = .ok (tree, rest)) := by
  rw [forLoop_cons]
  simp only [bind_eq_ok_iff, expectSymbol_eq_ok_iff, exists_const]
  refine exists_congr fun first => and_congr_right fun _ => ?_
  by_cases running : RunsOverItems first
  · rw [loopHead_of_runsOverItems running]
    simp [running]
  · rw [loopHead_of_not_runsOverItems running]
    simp [running]

theorem parameters_eq_ok_iff {names : List String} :
    parameters inner tokens = .ok (names, rest) ↔
      ∃ first, Takes tokens [.symbol "("] first ∧
        listUntil expectIdentifier ")" inner.rounds first = .ok (names, rest) := by
  simp only [parameters, bind_eq_ok_iff, expectSymbol_eq_ok_iff, exists_const]

theorem any_isIdentifier_iff :
    tokens.head?.any Token.isIdentifier = true ↔
      ∃ name following, Takes tokens [.identifier name] following := by
  cases tokens with
  | nil => simp [Token.Takes.single_iff]
  | cons token following =>
      simp only [List.head?_cons, Option.any_some, Token.isIdentifier_iff,
        Token.Takes.cons_left_iff]
      constructor
      · intro identified
        exact ⟨token.lexeme, following, identified, rfl⟩
      · intro named
        rcases named with ⟨name, _, named, -⟩
        rw [named, ← show token.lexeme = name from congrArg Word.lexeme named]

/-- A function from its parameters on. -/
def signature (inner : Inner) (name : Option String) : Parser Definition := do
  let parameters ← parameters inner
  let body ← body inner
  return .mk name parameters body

theorem definition_named {token : Token} {name : String}
    (named : Takes tokens [.identifier name] middle) :
    definition inner (token :: tokens) = signature inner (some name) middle := by
  simp only [definition, skip_bind, current?_bind]
  rw [if_pos (any_isIdentifier_iff.mpr ⟨name, middle, named⟩), bind_apply,
    map_eq_ok_iff.mpr ⟨name, expectIdentifier_eq_ok_iff.mpr named, rfl⟩]
  rfl

theorem definition_unnamed {token : Token}
    (unnamed : ¬∃ name following, Takes tokens [.identifier name] following) :
    definition inner (token :: tokens) = signature inner none tokens := by
  simp only [definition, skip_bind, current?_bind]
  rw [if_neg (mt any_isIdentifier_iff.mp unnamed)]
  rfl

theorem definition_cons_eq_ok_iff {token : Token} {tree : Definition} :
    definition inner (token :: tokens) = .ok (tree, rest) ↔
      ∃ first second name names commands,
        ((∃ word, name = some word ∧ Takes tokens [.identifier word] first) ∨
          name = none ∧ (¬∃ word following, Takes tokens [.identifier word] following) ∧
            first = tokens) ∧
        parameters inner first = .ok (names, second) ∧ body inner second = .ok (commands, rest) ∧
        tree = .mk name names commands := by
  by_cases named : ∃ word following, Takes tokens [.identifier word] following
  · obtain ⟨word, following, taken⟩ := named
    obtain ⟨head, rfl, spelled⟩ := Token.Takes.single_iff.mp taken
    rw [definition_named taken]
    simp only [signature, bind_eq_ok_iff, pure_eq_ok_iff, Token.Takes.cons_left_iff, spelled,
      Word.identifier]
    grind
  · rw [definition_unnamed named]
    simp only [signature, bind_eq_ok_iff, pure_eq_ok_iff]
    grind

theorem expressionStatement_eq_ok_iff {tree : Statement} :
    expressionStatement inner tokens = .ok (tree, rest) ↔
      ∃ first expression, inner.expression .lowest tokens = .ok (expression, first) ∧
        Takes first [.symbol ";"] rest ∧ tree = .expression expression := by
  simp only [expressionStatement, bind_eq_ok_iff, pure_eq_ok_iff, expectSymbol_eq_ok_iff]
  grind

theorem signal_cons_eq_ok_iff {token : Token} {command tree : Statement} :
    signal command (token :: tokens) = .ok (tree, rest) ↔
      Takes tokens [.symbol ";"] rest ∧ tree = command := by
  simp only [signal, skip_bind, bind_eq_ok_iff, pure_eq_ok_iff, expectSymbol_eq_ok_iff]
  grind

theorem statementsUntilEnd_nil {reader : Parser Statement} (rounds : Nat)
    (found : List Statement) :
    statementsUntilEnd reader rounds found [] = .ok (found.reverse, []) := by
  cases rounds <;> rfl

theorem statementsUntilEnd_cons_eq_ok_iff {reader : Parser Statement} {rounds : Nat}
    {found trees : List Statement} {token : Token} :
    statementsUntilEnd reader (rounds + 1) found (token :: tokens) = .ok (trees, rest) ↔
      ∃ tree middle, reader (token :: tokens) = .ok (tree, middle) ∧
        statementsUntilEnd reader rounds (tree :: found) middle = .ok (trees, rest) := by
  rw [statementsUntilEnd, current?_bind]
  exact bind_eq_ok_iff

theorem ofTokensWithin_eq_ok_iff {room : Nat} {program : Program} :
    Program.ofTokensWithin room tokens = .ok program ↔
      ∃ rest, statementsUntilEnd (statementWithin tokens.length room) tokens.length [] tokens =
        .ok (program, rest) := by
  change (statementsUntilEnd _ _ [] tokens >>= fun pair => pure pair.1) = _ ↔ _
  cases statementsUntilEnd (statementWithin tokens.length room) tokens.length [] tokens with
  | error error => simp [bind, Except.bind]
  | ok pair =>
      obtain ⟨trees, rest⟩ := pair
      simp [bind, Except.bind, pure, Except.pure]

theorem operatorPrecedence?_eq_some_iff {level : Precedence} :
    operatorPrecedence? tokens.head? = some level ↔
      tokens.head?.map Token.word = some (.symbol "[") ∧ level = .index ∨
      ∃ operator : BinaryOperator, operator ≠ .index ∧
        tokens.head?.map Token.word = some (.operator operator.spelling) ∧
        level = operator.precedence := by
  cases tokens with
  | nil => simp [operatorPrecedence?]
  | cons token following =>
      simp only [List.head?_cons, operatorPrecedence?, Option.map_some, Option.some.injEq]
      constructor
      · intro found
        split at found
        · next isOperator =>
            obtain ⟨operator, read, rfl⟩ := Option.map_eq_some_iff.mp found
            have spelled := BinaryOperator.spelling_of_ofLexeme? read
            refine .inr ⟨operator, ?_, ?_, rfl⟩
            · intro same
              subst same
              rw [← spelled] at read
              cases read
            · simp [Token.word, Word.operator, isOperator, spelled]
        · next isSymbol =>
            split at found
            · next bracket =>
                cases found
                exact .inl ⟨by simp [Token.word, Word.symbol, isSymbol, bracket], rfl⟩
            · cases found
        · cases found
      · intro begun
        rcases begun with ⟨bracket, rfl⟩ | ⟨operator, written, spelled, rfl⟩
        · have kind : token.kind = .symbol := congrArg Word.kind bracket
          have lexeme : token.lexeme = "[" := congrArg Word.lexeme bracket
          simp [kind, lexeme]
        · have kind : token.kind = .operator := congrArg Word.kind spelled
          have lexeme : token.lexeme = operator.spelling := congrArg Word.lexeme spelled
          simp [kind, lexeme, BinaryOperator.ofLexeme?_spelling operator written]

theorem application_bracket {left : Expression} (bracket : Takes tokens [.symbol "["] middle) :
    application inner left tokens =
      (inner.expression .lowest >>= fun index => expectSymbol "]" >>= fun _ =>
        pure (.binary .index left index)) middle := by
  obtain ⟨token, rfl, spelled⟩ := Token.Takes.single_iff.mp bracket
  change (if token.isSymbol "[" = true then _ else _ : Parser Expression) middle = _
  rw [if_pos (Token.isSymbol_iff.mpr spelled)]

theorem application_bracket_eq_ok_iff {left tree : Expression}
    (bracket : Takes tokens [.symbol "["] middle) :
    application inner left tokens = .ok (tree, rest) ↔
      ∃ first index, inner.expression .lowest middle = .ok (index, first) ∧
        Takes first [.symbol "]"] rest ∧ tree = .binary .index left index := by
  rw [application_bracket bracket]
  simp only [bind_eq_ok_iff, pure_eq_ok_iff, expectSymbol_eq_ok_iff]
  grind

theorem application_operator {left : Expression} {operator : BinaryOperator}
    (written : operator ≠ .index) (taken : Takes tokens [.operator operator.spelling] middle) :
    application inner left tokens =
      (inner.expression operator.precedence >>= fun right =>
        pure (.binary operator left right)) middle := by
  obtain ⟨token, rfl, spelled⟩ := Token.Takes.single_iff.mp taken
  have notBracket : ¬token.isSymbol "[" = true := by
    rw [Token.isSymbol_iff, spelled]
    intro same
    cases congrArg Word.kind same
  have read : BinaryOperator.ofLexeme? token.lexeme = some operator := by
    rw [show token.lexeme = operator.spelling from congrArg Word.lexeme spelled]
    exact BinaryOperator.ofLexeme?_spelling operator written
  change (if token.isSymbol "[" = true then _ else _ : Parser Expression) middle = _
  rw [if_neg notBracket, read]

theorem application_operator_eq_ok_iff {left tree : Expression} {operator : BinaryOperator}
    (written : operator ≠ .index) (taken : Takes tokens [.operator operator.spelling] middle) :
    application inner left tokens = .ok (tree, rest) ↔
      ∃ right, inner.expression operator.precedence middle = .ok (right, rest) ∧
        tree = .binary operator left right := by
  rw [application_operator written taken, bind_pure_eq_ok_iff]

/-- The next word is an operator that binds more tightly. -/
def GoesOn (precedence : Precedence) (tokens : List Token) : Prop :=
  ∃ level, operatorPrecedence? tokens.head? = some level ∧ precedence.rank < level.rank

theorem GoesOn.of_head {precedence : Precedence} (goesOn : GoesOn precedence tokens)
    (same : middle.head? = tokens.head?) : GoesOn precedence middle := by
  rwa [GoesOn, same]

theorem applications_of_goesOn {precedence : Precedence} {rounds : Nat} {left : Expression}
    (goesOn : GoesOn precedence tokens) :
    applications inner precedence (rounds + 1) left tokens =
      (application inner left >>= applications inner precedence rounds) tokens := by
  obtain ⟨level, found, tighter⟩ := goesOn
  rw [applications, current?_bind, found]
  simp only [tighter, if_true]

theorem applications_of_not_goesOn {precedence : Precedence} {left : Expression}
    (ended : ¬GoesOn precedence tokens) (rounds : Nat) :
    applications inner precedence rounds left tokens = .ok (left, tokens) := by
  cases rounds with
  | zero => rfl
  | succ rounds =>
      rw [applications, current?_bind]
      cases found : operatorPrecedence? tokens.head? with
      | none => rfl
      | some level =>
          have looser : ¬precedence.rank < level.rank := fun tighter => ended ⟨level, found, tighter⟩
          simp only [looser, if_false]
          rfl

end Parser

end Easel
