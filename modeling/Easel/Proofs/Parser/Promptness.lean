import Easel.Proofs.Grammar.Nesting
import Easel.Proofs.Parser.Tracking

/-!
No reader takes a token of which nothing can be made. Each rule of the parser is put together from
readers that are prompt, and the words that it may still ask for can always be written: the
shortest statement is a semicolon and the shortest operand an identifier, so there is a way out of
every phrase that has been begun.

The words of a phrase are those of its parts one behind another, and they are given as products of
languages. Three rules look ahead and take care that what they commit themselves to is not lost:
`def` and `for (` look at the word behind the next one and take the next one in any case, and the
loop over operators goes on only where its left operand is complete already.
-/

namespace Easel.Parser

open Grammar
open Token (Takes)

def spelled {Tree : Type} (phrase : List Word → Tree → Prop) : Language Word :=
  {words | ∃ tree, phrase words tree}

def exactly (word : Word) : Language Word :=
  {[word]}

/-- Words that a text can have and that are enough to finish every phrase. -/
def fillers : List Word :=
  [.identifier "x", .symbol "\x7b", .symbol "\x7d", .symbol "(", .symbol ")", .symbol "[",
    .symbol "]", .symbol ";", .symbol ":", .symbol ","]

theorem isLexed_fillers {words : List Word} (listed : ∀ word ∈ words, word ∈ fillers) :
    ∀ word ∈ words, word.IsLexed := by
  have text : ∀ word ∈ fillers, word ∈ Token.words "x\x7b\x7d()[];:,".toList := by decide +kernel
  intro word member
  exact ⟨_, text word (listed word member)⟩

theorem fillable_exactly {word : Word} (listed : word ∈ fillers) : Fillable (exactly word) :=
  ⟨[word], rfl, isLexed_fillers (List.forall_mem_singleton.mpr listed)⟩

section Expected

variable {rounds : Nat} {language : Language Word}

theorem expect_prompt {expected : Expectation} {test : Token → Bool}
    (accepts : ∀ token, test token = true → [token.word] ∈ language)
    (fillable : Fillable language) :
    Prompt rounds language (expect expected test) (expect expected test) := by
  refine ⟨fillable, fun {tokens} _ => ?_⟩
  cases tokens with
  | nil => exact tracks_end id rfl fillable
  | cons token following =>
      by_cases passes : test token = true
      · have takes : ∀ rest, expect expected test (token :: rest) = .ok (token, rest) := by
          intro rest
          rw [expect_cons, if_pos passes]
        rw [Tracks, takes]
        exact .accepted [token] rfl False.elim (accepts token passes) fun rest _ => takes rest
      · have refuses : ∀ rest, expect expected test (token :: rest) =
            .error (.atToken token expected) := by
          intro rest
          rw [expect_cons, if_neg passes]
        exact tracks_refusal id (refuses following) refuses fillable

theorem expectSymbol_prompt {lexeme : String} (listed : .symbol lexeme ∈ fillers) :
    Prompt rounds (exactly (.symbol lexeme)) (expectSymbol lexeme) (expectSymbol lexeme) := by
  change Prompt rounds _ (Function.const Token () <$> expect _ _)
    (Function.const Token () <$> expect _ _)
  rw [map_eq_pure_bind]
  apply Prompt.map
  apply expect_prompt
  · intro token passes
    rw [Token.isSymbol_iff.mp passes]
    rfl
  · exact fillable_exactly listed

theorem expectIdentifier_prompt :
    Prompt rounds (spelled IsParameter) expectIdentifier expectIdentifier := by
  rw [expectIdentifier, map_eq_pure_bind]
  apply Prompt.map
  apply expect_prompt
  · intro token passes
    rw [Token.isIdentifier_iff.mp passes]
    exact ⟨_, .identifier _⟩
  · exact (fillable_exactly (show .identifier "x" ∈ fillers by decide)).mono
      fun | _, rfl => ⟨"x", .identifier "x"⟩

end Expected

section Lists

variable {Tree : Type} {phrase : List Word → Tree → Prop} {language : Language Word}
  {closing : String} {limit rounds roundsAgain : Nat}

theorem expectSeparator_cons {token : Token} {rest : List Token} :
    expectSeparator closing (token :: rest) =
      if token.isSymbol "," || token.isSymbol closing then .ok (token.isSymbol closing, rest)
      else .error (.atToken token (.separatorOr closing)) := by
  rw [expectSeparator, bind_apply, expect_cons]
  by_cases accepted : (token.isSymbol "," || token.isSymbol closing) = true
  · rw [if_pos accepted, if_pos accepted]
    rfl
  · rw [if_neg accepted, if_neg accepted]

theorem separator_prompt {result : List Tree} {more moreAgain : Parser (List Tree)}
    (lexed : .symbol closing ∈ fillers) (prompt : Prompt rounds language more moreAgain) :
    Prompt (rounds + 1) (exactly (.symbol closing) + exactly (.symbol ",") * language)
      (expectSeparator closing >>= fun closes => if closes then pure result else more)
      (expectSeparator closing >>= fun closes => if closes then pure result else moreAgain) := by
  have fillable : Fillable (exactly (.symbol closing) + exactly (.symbol ",") * language) :=
    (fillable_exactly lexed).mono fun _ member => .inl member
  refine ⟨fillable, fun {tokens} legible => ?_⟩
  cases tokens with
  | nil => exact tracks_end id rfl fillable
  | cons token following =>
      by_cases closed : token.isSymbol closing = true
      · have takes : ∀ (more : Parser (List Tree)) rest,
            (expectSeparator closing >>= fun closes => if closes then pure result else more)
              (token :: rest) = (pure result : Parser (List Tree)) rest := by
          intro more rest
          simp [bind_apply, expectSeparator_cons, closed]
        refine ((tracks_pure Language.nil_mem_one).cons (Token.isSymbol_iff.mp closed) (takes more)
          (takes moreAgain) ?_).lazier False.elim
        rintro _ rfl
        exact .inl rfl
      · by_cases comma : token.isSymbol "," = true
        · have takes : ∀ (more : Parser (List Tree)) rest,
              (expectSeparator closing >>= fun closes => if closes then pure result else more)
                (token :: rest) = more rest := by
            intro more rest
            simp [bind_apply, expectSeparator_cons, closed, comma]
          refine ((prompt.tracks legible.shorter).cons (Token.isSymbol_iff.mp comma) (takes more)
            (takes moreAgain) ?_).lazier False.elim
          intro words member
          exact .inr ⟨_, rfl, words, member, rfl⟩
        · have refuses : ∀ (more : Parser (List Tree)) rest,
              (expectSeparator closing >>= fun closes => if closes then pure result else more)
                (token :: rest) = .error (.atToken token (.separatorOr closing)) := by
            intro more rest
            simp [bind_apply, expectSeparator_cons, closed, comma]
          exact tracks_refusal id (refuses more following) (refuses moreAgain) fillable

variable [Nonempty Tree] {item itemAgain : Parser Tree}

/-- Every round takes a separator, so the tokens are enough rounds. -/
theorem itemsUntil_prompt (prompt : Prompt limit (spelled phrase) item itemAgain)
    (lexed : .symbol closing ∈ fillers) (within : rounds ≤ limit) (atMost : rounds ≤ roundsAgain)
    (found : List Tree) :
    Prompt rounds (spelled (Separated phrase) * exactly (.symbol closing))
      (itemsUntil item closing rounds found) (itemsUntil itemAgain closing roundsAgain found) := by
  induction rounds generalizing roundsAgain found with
  | zero =>
      have item : Fillable (spelled (Separated phrase)) :=
        prompt.fillable.mono fun _ ⟨_, only⟩ => ⟨_, .last only⟩
      have fillable := item.mul (fillable_exactly lexed)
      refine ⟨fillable, fun {tokens} legible => ?_⟩
      rw [legible.eq_nil]
      exact tracks_end id rfl fillable
  | succ rounds induction =>
      obtain ⟨roundsAgain, rfl⟩ := Nat.exists_eq_succ_of_ne_zero (Nat.ne_zero_of_lt atMost)
      refine Prompt.mono ((prompt.fewer within).seq fun next => separator_prompt lexed
        (induction (Nat.le_of_succ_le within) (Nat.le_of_succ_le_succ atMost) (next :: found))) ?_
      rintro _ ⟨itemWords, ⟨tree, only⟩, _,
        rfl | ⟨_, rfl, _, ⟨others, ⟨trees, rest⟩, _, rfl, rfl⟩, rfl⟩, rfl⟩
      · exact ⟨itemWords, ⟨_, .last only⟩, _, rfl, rfl⟩
      · exact ⟨_, ⟨_, .cons only rest⟩, _, rfl, by simp⟩

theorem listUntil_prompt (prompt : Prompt rounds (spelled phrase) item itemAgain)
    (opening : String) (lexed : .symbol closing ∈ fillers) (atMost : rounds ≤ roundsAgain) :
    Prompt rounds ((spelled (Listed phrase opening closing)).leftQuotient [.symbol opening])
      (listUntil item closing rounds) (listUntil itemAgain closing roundsAgain) := by
  have empty : [.symbol closing] ∈
      (spelled (Listed phrase opening closing)).leftQuotient [.symbol opening] := ⟨_, .empty⟩
  have items : Prompt rounds
      ((spelled (Listed phrase opening closing)).leftQuotient [.symbol opening])
      (itemsUntil item closing rounds []) (itemsUntil itemAgain closing roundsAgain []) := by
    apply (itemsUntil_prompt prompt lexed (Nat.le_refl _) atMost []).mono
    rintro _ ⟨words, ⟨trees, separated⟩, _, rfl, rfl⟩
    exact ⟨trees, .items separated⟩
  refine ⟨items.fillable, fun {tokens} legible => ?_⟩
  by_cases closed : tokens.head?.any (·.isSymbol closing) = true
  · have takes : ∀ (item : Parser Tree) rounds {tokens token rest}, tokens = token :: rest →
        tokens.head?.any (·.isSymbol closing) = true →
        listUntil item closing rounds tokens = (pure [] : Parser (List Tree)) rest := by
      rintro item rounds _ token rest rfl closed
      rw [listUntil, current?_bind, if_pos closed, skip_bind]
    cases tokens with
    | nil => cases closed
    | cons token following =>
        refine ((tracks_pure Language.nil_mem_one).cons (Token.isSymbol_iff.mp closed)
          (fun _ => takes item rounds rfl closed) (fun _ => takes itemAgain roundsAgain rfl closed)
          ?_).lazier False.elim
        rintro _ rfl
        exact empty
  · have chooses : ∀ (item : Parser Tree) rounds tokens', tokens'.head? = tokens.head? →
        listUntil item closing rounds tokens' = itemsUntil item closing rounds [] tokens' := by
      intro item rounds tokens' same
      rw [listUntil, current?_bind, same, if_neg closed]
    exact (items.tracks legible).of_head (chooses item rounds) (chooses itemAgain roundsAgain)

end Lists

theorem fillable_statement (phrases : Phrases) : Fillable (spelled (IsStatement phrases)) :=
  (fillable_exactly (show .symbol ";" ∈ fillers by decide)).mono
    fun | _, rfl => ⟨_, .empty⟩

theorem fillable_operand (phrases : Phrases) (precedence : Precedence) :
    Fillable (spelled
      (operandPhrase ⟨IsStatement phrases, IsExpression phrases, IsTerm phrases⟩ precedence)) := by
  refine (fillable_exactly (show .identifier "x" ∈ fillers by decide)).mono ?_
  rintro _ rfl
  have term : IsTerm phrases .unary [.identifier "x"] (.identifier "x") :=
    .primary (.identifier "x")
  have loosened := term.loosen precedence.tighter.rank_le_unary precedence.tighter_ne_lowest
  cases precedence with
  | lowest => exact ⟨_, .term loosened⟩
  | _ => exact ⟨_, loosened⟩

theorem fillable_definition (phrases : Phrases) :
    Fillable ((spelled (IsStatement phrases)).leftQuotient [.keyword "def"]) := by
  have defined : IsFunction phrases _ _ := .named "x" .empty (.braced .nil)
  refine ⟨[.identifier "x", .symbol "(", .symbol ")", .symbol "\x7b", .symbol "\x7d"],
    ⟨_, .definition ⟨"x", _, rfl⟩ defined⟩, isLexed_fillers (by decide)⟩

def Opens (tokens : List Token) : Prop :=
  ∃ word, tokens.head?.map Token.word = some word ∧ BeginsOperand word

/-- The readers of one level are prompt, and the other ones do what they do. A reader of
expressions takes a token in any case if it can begin an operand. -/
structure Tracked (inner again : Inner) (phrases : Phrases) : Prop where
  sound : Sound inner phrases
  rounds : inner.rounds ≤ again.rounds
  statement : Prompt inner.rounds (spelled phrases.statement) inner.statement again.statement
  nonempty : [] ∉ spelled phrases.statement
  operands : ∀ precedence, Fillable (spelled (operandPhrase phrases precedence))
  operand : ∀ precedence {tokens}, Legible inner.rounds tokens →
    Tracks (Opens tokens) (spelled (operandPhrase phrases precedence))
      (inner.expression precedence) (again.expression precedence) tokens

section Rules

variable {inner again : Inner} {phrases : Phrases} {tokens : List Token}
  (tracked : Tracked inner again phrases)

include tracked

theorem Tracked.expression (precedence : Precedence) :
    Prompt inner.rounds (spelled (operandPhrase phrases precedence)) (inner.expression precedence)
      (again.expression precedence) :=
  ⟨tracked.operands precedence,
    fun legible => (tracked.operand precedence legible).lazier False.elim⟩

theorem statementsUntilBrace_prompt {rounds roundsAgain : Nat} (within : rounds ≤ inner.rounds)
    (atMost : rounds ≤ roundsAgain) (found : List Statement) :
    Prompt rounds (spelled (Sequence phrases.statement) * exactly (.symbol "\x7d"))
      (statementsUntilBrace inner rounds found) (statementsUntilBrace again roundsAgain found) := by
  have closed : Fillable (exactly (.symbol "\x7d")) := fillable_exactly (by decide)
  have fillable : Fillable (spelled (Sequence phrases.statement) * exactly (.symbol "\x7d")) :=
    closed.mono fun words member => ⟨[], ⟨[], .nil⟩, words, member, rfl⟩
  induction rounds generalizing roundsAgain found with
  | zero =>
      refine ⟨fillable, fun {tokens} legible => ?_⟩
      rw [legible.eq_nil]
      exact tracks_end id rfl fillable
  | succ rounds induction =>
      obtain ⟨roundsAgain, rfl⟩ := Nat.exists_eq_succ_of_ne_zero (Nat.ne_zero_of_lt atMost)
      have more := (tracked.statement.fewer within).seq_shorter tracked.nonempty fun statement =>
        induction (Nat.le_of_succ_le within) (Nat.le_of_succ_le_succ atMost) (statement :: found)
      refine ⟨fillable, fun {tokens} legible => ?_⟩
      cases tokens with
      | nil => exact tracks_end id rfl fillable
      | cons token following =>
          by_cases closes : token.isSymbol "\x7d" = true
          · have takes : ∀ inner rounds rest,
                statementsUntilBrace inner (rounds + 1) found (token :: rest) =
                  (pure found.reverse : Parser (List Statement)) rest := by
              intro inner rounds rest
              rw [statementsUntilBrace, current?_bind, List.head?_cons]
              simp only [closes, if_true, skip_bind]
            refine ((tracks_pure Language.nil_mem_one).cons (Token.isSymbol_iff.mp closes)
              (takes inner rounds) (takes again roundsAgain) ?_).lazier False.elim
            rintro _ rfl
            exact ⟨[], ⟨[], .nil⟩, _, rfl, rfl⟩
          · have goesOn : ∀ inner rounds rest,
                statementsUntilBrace inner (rounds + 1) found (token :: rest) =
                  (inner.statement >>= fun statement =>
                    statementsUntilBrace inner rounds (statement :: found)) (token :: rest) := by
              intro inner rounds rest
              rw [statementsUntilBrace, current?_bind, List.head?_cons]
              simp only [closes, if_false, Bool.false_eq_true]
            refine ((more.tracks legible).of_first (goesOn inner rounds)
              (goesOn again roundsAgain)).mono ?_
            rintro _ ⟨words, ⟨tree, head⟩, _, ⟨others, ⟨trees, tail⟩, _, rfl, rfl⟩, rfl⟩
            exact ⟨_, ⟨_, .cons head tail⟩, _, rfl, List.append_assoc _ _ _⟩

theorem body_prompt : Prompt inner.rounds (spelled (IsBody phrases)) (body inner) (body again) := by
  refine ((expectSymbol_prompt (by decide)).seq fun _ =>
    statementsUntilBrace_prompt tracked (Nat.le_refl _) tracked.rounds []).mono ?_
  rintro _ ⟨_, rfl, _, ⟨words, ⟨trees, statements⟩, _, rfl, rfl⟩, rfl⟩
  exact ⟨trees, .braced statements⟩

theorem condition_prompt :
    Prompt inner.rounds (spelled (IsCondition phrases)) (condition inner) (condition again) := by
  refine ((expectSymbol_prompt (by decide)).seq fun _ =>
    (tracked.expression .lowest).seq fun tree =>
      (expectSymbol_prompt (by decide)).map fun _ => tree).mono ?_
  rintro _ ⟨_, rfl, _, ⟨words, ⟨tree, inside⟩, _, rfl, rfl⟩, rfl⟩
  exact ⟨tree, .parenthesised inside⟩

theorem alternatives_prompt {rounds roundsAgain : Nat} (within : rounds ≤ inner.rounds)
    (atMost : rounds ≤ roundsAgain) :
    Prompt rounds (spelled (IsAlternatives phrases)) (alternatives inner rounds)
      (alternatives again roundsAgain) := by
  have none : [] ∈ spelled (IsAlternatives phrases) := ⟨_, .none⟩
  induction rounds generalizing roundsAgain with
  | zero =>
      refine ⟨fillable_of_nil none, fun {tokens} legible => ?_⟩
      rw [legible.eq_nil]
      exact tracks_nil rfl (by cases roundsAgain <;> rfl) none
  | succ rounds induction =>
      obtain ⟨roundsAgain, rfl⟩ := Nat.exists_eq_succ_of_ne_zero (Nat.ne_zero_of_lt atMost)
      have fewer : rounds ≤ inner.rounds := Nat.le_of_succ_le within
      have branch := ((condition_prompt tracked).fewer fewer).seq fun test =>
        ((body_prompt tracked).fewer fewer).seq fun branch =>
          (induction fewer (Nat.le_of_succ_le_succ atMost)).map (Alternatives.branch test branch)
      have otherwise := ((body_prompt tracked).fewer fewer).map Alternatives.otherwise
      refine ⟨fillable_of_nil none, fun {tokens} legible => ?_⟩
      cases tokens with
      | nil => exact tracks_nil rfl rfl none
      | cons token following =>
          by_cases another : token.isKeyword "elif" = true
          · have takes : ∀ inner rounds rest, alternatives inner (rounds + 1) (token :: rest) =
                (condition inner >>= fun test => body inner >>= fun branch =>
                  alternatives inner rounds >>= fun others =>
                    pure (.branch test branch others)) rest := by
              intro inner rounds rest
              simp only [alternatives, current?_bind, List.head?_cons, another, if_true, skip_bind]
            refine ((branch.tracks legible.shorter).cons (Token.isKeyword_iff.mp another)
              (takes inner rounds) (takes again roundsAgain) ?_).lazier False.elim
            rintro _ ⟨testWords, ⟨test, tested⟩, _, ⟨bodyWords, ⟨commands, braced⟩, otherWords,
              ⟨others, isOthers⟩, rfl⟩, rfl⟩
            exact ⟨_, by simpa using IsAlternatives.branch tested braced isOthers⟩
          · by_cases final : token.isKeyword "else" = true
            · have takes : ∀ inner rounds rest, alternatives inner (rounds + 1) (token :: rest) =
                  (body inner >>= fun commands => pure (.otherwise commands)) rest := by
                intro inner rounds rest
                simp only [alternatives, current?_bind, List.head?_cons, another, final, if_true,
                  if_false, skip_bind, Bool.false_eq_true]
              refine ((otherwise.tracks legible.shorter).cons (Token.isKeyword_iff.mp final)
                (takes inner rounds) (takes again roundsAgain) ?_).lazier False.elim
              rintro words ⟨commands, braced⟩
              exact ⟨_, .otherwise braced⟩
            · have stops : ∀ inner rounds rest, alternatives inner (rounds + 1) (token :: rest) =
                  (pure .none : Parser Alternatives) (token :: rest) := by
                intro inner rounds rest
                simp only [alternatives, current?_bind, List.head?_cons, another, final, if_false,
                  Bool.false_eq_true]
              exact (tracks_pure none).of_first (stops inner rounds) (stops again roundsAgain)

theorem parameters_prompt :
    Prompt inner.rounds (spelled (Listed IsParameter "(" ")")) (parameters inner)
      (parameters again) := by
  refine ((expectSymbol_prompt (by decide)).seq fun _ =>
    listUntil_prompt expectIdentifier_prompt "(" (by decide) tracked.rounds).mono ?_
  rintro _ ⟨_, rfl, words, member, rfl⟩
  exact member

theorem expressionList_prompt (opening : String) {closing : String}
    (lexed : .symbol closing ∈ fillers) :
    Prompt inner.rounds
      ((spelled (Listed phrases.expression opening closing)).leftQuotient [.symbol opening])
      (expressionList inner closing) (expressionList again closing) :=
  listUntil_prompt (tracked.expression .lowest) opening lexed tracked.rounds

theorem signature_prompt (name : Option String) :
    Prompt inner.rounds (spelled (Listed IsParameter "(" ")") * spelled (IsBody phrases))
      (signature inner name) (signature again name) :=
  (parameters_prompt tracked).seq fun parameters =>
    (body_prompt tracked).map (Definition.mk name parameters)

theorem definition_named_tracks {token : Token} {following rest : List Token} {name : String}
    (word : token.word = .keyword "def") (named : Takes following [.identifier name] rest)
    (legible : Legible inner.rounds (token :: following)) :
    Tracks True
      (exactly (.keyword "def") * (exactly (.identifier name) *
        (spelled (Listed IsParameter "(" ")") * spelled (IsBody phrases))))
      (definition inner) (definition again) (token :: following) := by
  obtain ⟨identifier, rfl, spelling⟩ := Token.Takes.single_iff.mp named
  have takes : ∀ inner others,
      definition inner (token :: identifier :: others) = signature inner (some name) others := by
    intro inner others
    exact definition_named (spelling ▸ Token.Takes.single identifier others)
  have afterName : Tracks True
      (exactly (.identifier name) *
        (spelled (Listed IsParameter "(" ")") * spelled (IsBody phrases)))
      (fun others => definition inner (token :: others))
      (fun others => definition again (token :: others)) (identifier :: rest) :=
    ((signature_prompt tracked (some name)).tracks legible.tail.tail).cons spelling (takes inner)
      (takes again) fun words member => ⟨_, rfl, words, member, rfl⟩
  exact afterName.cons word (fun _ => rfl) (fun _ => rfl)
    fun words member => ⟨_, rfl, words, member, rfl⟩

theorem definition_unnamed_tracks {token : Token} {following : List Token}
    (word : token.word = .keyword "def")
    (unnamed : ¬∃ name rest, Takes following [.identifier name] rest)
    (legible : Legible inner.rounds (token :: following)) :
    Tracks True
      (exactly (.keyword "def") *
        (spelled (Listed IsParameter "(" ")") * spelled (IsBody phrases)))
      (definition inner) (definition again) (token :: following) := by
  have chooses : ∀ inner tokens', tokens'.head? = following.head? →
      definition inner (token :: tokens') = signature inner none tokens' := by
    intro inner tokens' same
    apply definition_unnamed
    rwa [← any_isIdentifier_iff, same, any_isIdentifier_iff]
  have rest := (signature_prompt tracked none).tracks legible.tail
  exact (rest.of_head (chooses inner) (chooses again)).cons word (fun _ => rfl) (fun _ => rfl)
    fun words member => ⟨_, rfl, words, member, rfl⟩

theorem definition_tracks {token : Token} {following : List Token}
    (word : token.word = .keyword "def") (legible : Legible inner.rounds (token :: following)) :
    Tracks True (spelled (IsFunction phrases)) (definition inner) (definition again)
      (token :: following) := by
  by_cases named : ∃ name rest, Takes following [.identifier name] rest
  · obtain ⟨name, rest, named⟩ := named
    refine (definition_named_tracks tracked word named legible).mono ?_
    rintro _ ⟨_, rfl, _, ⟨_, rfl, _, ⟨parameterWords, ⟨parameters, listed⟩, bodyWords,
      ⟨commands, braced⟩, rfl⟩, rfl⟩, rfl⟩
    have defined := IsFunction.named name listed braced
    exact ⟨_, defined⟩
  · refine (definition_unnamed_tracks tracked word named legible).mono ?_
    rintro _ ⟨_, rfl, _, ⟨parameterWords, ⟨parameters, listed⟩, bodyWords, ⟨commands, braced⟩,
      rfl⟩, rfl⟩
    have defined := IsFunction.unnamed listed braced
    exact ⟨_, defined⟩

/-- An operand without binary operators, or an assignment where one may stand. -/
def operandWords (phrases : Phrases) (precedence : Precedence) : Language Word :=
  {words | ∃ tree, IsTerm phrases .unary words tree ∨
    precedence = .lowest ∧ IsExpression phrases words tree}

theorem afterIdentifier_tracks {name : String} {precedence : Precedence}
    (legible : Legible inner.rounds tokens) :
    Tracks False ((operandWords phrases precedence).leftQuotient [.identifier name])
      (afterIdentifier inner name precedence) (afterIdentifier again name precedence) tokens := by
  have alone : [] ∈ (operandWords phrases precedence).leftQuotient [.identifier name] :=
    ⟨_, .inl (.primary (.identifier name))⟩
  cases tokens with
  | nil => exact tracks_nil rfl rfl alone
  | cons token following =>
      have begun := Token.Takes.single token
      by_cases extended : ExtendsIdentifier precedence token.word
      · suffices Tracks True _ _ _ _ from this.lazier False.elim
        rcases extended with word | ⟨operator, lowest, word⟩ | ⟨operator, after, word⟩ <;>
          rw [word] at begun
        · have listed := expressionList_prompt tracked "(" (show .symbol ")" ∈ fillers by decide)
          have arguments := (listed.map (Expression.call name)).tracks legible.tail
          refine arguments.cons word (fun rest => afterIdentifier_call (begun rest))
            (fun rest => afterIdentifier_call (begun rest)) ?_
          rintro words ⟨trees, listed⟩
          exact ⟨_, .inl (.primary (.call name listed))⟩
        · subst lowest
          have value := ((tracked.expression .lowest).map (Expression.assign operator name)).tracks
            legible.tail
          refine value.cons word (fun rest => afterIdentifier_assign (begun rest))
            (fun rest => afterIdentifier_assign (begun rest)) ?_
          rintro words ⟨tree, assigned⟩
          exact ⟨_, .inr ⟨rfl, .assign operator name assigned⟩⟩
        · have takes : ∀ inner rest, afterIdentifier inner name precedence (token :: rest) =
              (pure (.unary operator (.identifier name)) : Parser Expression) rest := by
            intro inner rest
            exact (afterIdentifier_increment_eq_ok_iff after (begun rest)).mpr ⟨rfl, rfl⟩
          refine (tracks_pure Language.nil_mem_one).cons word (takes inner) (takes again) ?_
          rintro _ rfl
          exact ⟨_, .inl (.primary (.increment name after))⟩
      · have stops : ∀ inner rest, afterIdentifier inner name precedence (token :: rest) =
            (pure (.identifier name) : Parser Expression) (token :: rest) := by
          intro inner rest
          apply afterIdentifier_alone
          rintro word ⟨⟩
          exact extended
        exact (tracks_pure alone).of_first (stops inner) (stops again)

theorem operand_tracks_of_begins (precedence : Precedence) {token : Token}
    (begins : BeginsOperand token.word) (legible : Legible inner.rounds (token :: tokens)) :
    Tracks True (operandWords phrases precedence) (operand inner precedence)
      (operand again precedence) (token :: tokens) := by
  have begun := Token.Takes.single token
  rcases begins with kind | kind | kind | ⟨operator, before, word⟩ | word | word | word
  · have word : token.word = ⟨.number, token.lexeme⟩ := congrArg (Word.mk · _) kind
    rw [word] at begun
    have shape := (legible.lexed token List.mem_cons_self).hasShape
    rw [show token.kind = .number from kind] at shape
    have takes : ∀ inner rest, operand inner precedence (token :: rest) =
        (pure (.literal (.number (numeral token.lexeme))) : Parser Expression) rest :=
      fun inner rest => (operand_number_eq_ok_iff (begun rest)).mpr
        ⟨Decimal.read?_of_isNumeral shape, rfl, rfl⟩
    refine (tracks_pure Language.nil_mem_one).cons word (takes inner) (takes again) ?_
    rintro _ rfl
    exact ⟨_, .inl (.primary (.number token.lexeme))⟩
  · have word : token.word = ⟨.text, token.lexeme⟩ := congrArg (Word.mk · _) kind
    rw [word] at begun
    have takes : ∀ inner rest, operand inner precedence (token :: rest) =
        (pure (.literal (.text token.lexeme)) : Parser Expression) rest :=
      fun inner rest => (operand_text_eq_ok_iff (begun rest)).mpr ⟨rfl, rfl⟩
    refine (tracks_pure Language.nil_mem_one).cons word (takes inner) (takes again) ?_
    rintro _ rfl
    exact ⟨_, .inl (.primary (.text token.lexeme))⟩
  · have word : token.word = .identifier token.lexeme := congrArg (Word.mk · _) kind
    rw [word] at begun
    exact (afterIdentifier_tracks tracked legible.tail).cons word
      (fun rest => operand_identifier (begun rest))
      (fun rest => operand_identifier (begun rest)) fun _ member => member
  · rw [word] at begun
    have right := ((tracked.expression .unary).map (Expression.unary operator)).tracks
      legible.tail
    refine right.cons word (fun rest => operand_operator before (begun rest))
      (fun rest => operand_operator before (begun rest)) ?_
    rintro words ⟨tree, operand⟩
    exact ⟨_, .inl (.unary before operand)⟩
  · rw [word] at begun
    have inside := ((tracked.expression .lowest).seq fun tree =>
      (expectSymbol_prompt (show .symbol ")" ∈ fillers by decide)).map fun _ => tree).tracks
        legible.tail
    refine inside.cons word (fun rest => operand_parenthesis (begun rest))
      (fun rest => operand_parenthesis (begun rest)) ?_
    rintro _ ⟨words, ⟨tree, inside⟩, _, rfl, rfl⟩
    exact ⟨_, .inl (.primary (.parenthesised inside))⟩
  · rw [word] at begun
    have listed := expressionList_prompt tracked "[" (show .symbol "]" ∈ fillers by decide)
    have items := (listed.map Expression.list).tracks legible.tail
    refine items.cons word (fun rest => operand_bracket (begun rest))
      (fun rest => operand_bracket (begun rest)) ?_
    rintro words ⟨trees, listed⟩
    exact ⟨_, .inl (.primary (.list listed))⟩
  · rw [word] at begun
    have function := (definition_tracks tracked word legible).map Expression.function
    refine (function.of_first (fun rest => operand_def (begun rest))
      (fun rest => operand_def (begun rest))).mono ?_
    rintro words ⟨tree, defined⟩
    exact ⟨_, .inl (.primary (.function defined))⟩

theorem operand_tracks (precedence : Precedence) (legible : Legible inner.rounds tokens) :
    Tracks (Opens tokens) (operandWords phrases precedence) (operand inner precedence)
      (operand again precedence) tokens := by
  have fillable : Fillable (operandWords phrases precedence) :=
    (fillable_exactly (show .identifier "x" ∈ fillers by decide)).mono
      fun | _, rfl => ⟨_, .inl (.primary (.identifier "x"))⟩
  cases tokens with
  | nil =>
      refine tracks_end ?_ rfl fillable
      rintro ⟨word, ⟨⟩, -⟩
  | cons token following =>
      by_cases begins : BeginsOperand token.word
      · exact (operand_tracks_of_begins tracked precedence begins legible).lazier fun _ => trivial
      · have refuses : ∀ inner rest, operand inner precedence (token :: rest) =
            .error (.atToken token .expression) := fun _ _ => operand_of_not_begins begins
        refine tracks_refusal ?_ (refuses inner following) (refuses again) fillable
        rintro ⟨word, ⟨⟩, begun⟩
        exact begins begun

theorem application_tracks {level next : Precedence} {left : Expression} {leftWords : List Word}
    (term : IsTerm phrases level leftWords left) (bounded : ¬GoesOn level tokens)
    (found : operatorPrecedence? tokens.head? = some next)
    (legible : Legible inner.rounds tokens) :
    Tracks False ((spelled (IsTerm phrases next)).leftQuotient leftWords) (application inner left)
      (application again left) tokens := by
  suffices Tracks True _ _ _ _ from this.lazier False.elim
  have within := le_of_not_goesOn bounded found
  cases tokens with
  | nil => cases found
  | cons token following =>
      have begun := Token.Takes.single token
      rcases operatorPrecedence?_eq_some_iff.mp found with
        ⟨bracket, rfl⟩ | ⟨operator, written, spelling, rfl⟩
      · have word : token.word = .symbol "[" := Option.some.inj bracket
        rw [word] at begun
        have index := ((tracked.expression .lowest).seq fun index =>
          (expectSymbol_prompt (show .symbol "]" ∈ fillers by decide)).map fun _ =>
            Expression.binary .index left index).tracks legible.tail
        refine index.cons word (fun rest => application_bracket (begun rest))
          (fun rest => application_bracket (begun rest)) ?_
        rintro _ ⟨words, ⟨tree, inside⟩, _, rfl, rfl⟩
        exact ⟨_, by simpa using IsTerm.index (term.loosen within (by decide)) inside⟩
      · have word : token.word = .operator operator.spelling := Option.some.inj spelling
        rw [word] at begun
        have right := ((tracked.expression operator.precedence).map
          (Expression.binary operator left)).tracks legible.tail
        refine right.cons word (fun rest => application_operator written (begun rest))
          (fun rest => application_operator written (begun rest)) ?_
        rintro words ⟨tree, second⟩
        rw [operandPhrase_of_ne_lowest phrases operator.precedence_ne_lowest] at second
        have first := term.loosen within operator.precedence_ne_lowest
        exact ⟨_, IsTerm.binary written first second⟩

omit tracked in
theorem applications_tracks_of_not_goesOn {precedence : Precedence} {language : Language Word}
    {rounds roundsAgain : Nat} {left : Expression} (ended : ¬GoesOn precedence tokens)
    (complete : [] ∈ language) :
    Tracks False language (applications inner precedence rounds left)
      (applications again precedence roundsAgain left) tokens := by
  have stops : ∀ inner rounds (others : List Token), others.head? = tokens.head? →
      applications inner precedence rounds left others = (pure left : Parser Expression) others :=
    fun _ rounds _ same =>
      applications_of_not_goesOn (fun goesOn => ended (goesOn.of_head same.symm)) rounds
  exact (tracks_pure complete).of_head (stops inner rounds) (stops again roundsAgain)

/-- The loop over operators. Its left operand is a whole phrase already, so the loop may stop
wherever it stands. -/
theorem applications_tracks {precedence level : Precedence} {whole : Language Word}
    (contains : ∀ {words tree}, IsTerm phrases precedence.tighter words tree → words ∈ whole)
    {rounds roundsAgain : Nat} {left : Expression} {leftWords : List Word}
    (term : IsTerm phrases level leftWords left) (above : precedence.tighter.rank ≤ level.rank)
    (bounded : ¬GoesOn level tokens) (legible : Legible inner.rounds tokens)
    (short : tokens.length ≤ rounds) (atMost : rounds ≤ roundsAgain) :
    Tracks False (whole.leftQuotient leftWords) (applications inner precedence rounds left)
      (applications again precedence roundsAgain left) tokens := by
  have stops : ∀ {words : List Word} {tree : Expression} {level : Precedence},
      IsTerm phrases level words tree → precedence.tighter.rank ≤ level.rank →
      [] ∈ whole.leftQuotient words := by
    intro words tree level term above
    exact nil_mem_leftQuotient (contains (term.loosen above precedence.tighter_ne_lowest))
  induction rounds generalizing roundsAgain tokens level left leftWords with
  | zero =>
      rw [List.length_eq_zero_iff.mp (Nat.le_zero.mp short)]
      exact applications_tracks_of_not_goesOn (not_goesOn_nil precedence) (stops term above)
  | succ rounds induction =>
      obtain ⟨roundsAgain, rfl⟩ := Nat.exists_eq_succ_of_ne_zero (Nat.ne_zero_of_lt atMost)
      by_cases goesOn : GoesOn precedence tokens
      · refine Tracks.of_head ?_ (fun _ same => applications_of_goesOn (goesOn.of_head same))
          (fun _ same => applications_of_goesOn (goesOn.of_head same))
        obtain ⟨next, found, tighter⟩ := goesOn
        have aboveNext := Precedence.rank_tighter_le tighter
        apply (application_tracks tracked term bounded found legible).bind
        · rintro words ⟨tree, longer⟩
          rw [← Language.leftQuotient_append]
          exact fillable_of_nil (stops longer aboveNext)
        · intro extended taken rest read split _
          obtain ⟨words, nonempty, takes, longer, ended⟩ :=
            application_sound tracked.sound legible term bounded found read
          have shorter := takes.length_lt nonempty
          rw [takes.words_eq split, ← Language.leftQuotient_append]
          exact induction longer aboveNext ended (legible.of_takes takes) (by omega)
            (Nat.le_of_succ_le_succ atMost)
      · exact applications_tracks_of_not_goesOn goesOn (stops term above)

theorem expression_tracks (precedence : Precedence) (legible : Legible inner.rounds tokens) :
    Tracks (Opens tokens)
      (spelled
        (operandPhrase ⟨IsStatement phrases, IsExpression phrases, IsTerm phrases⟩ precedence))
      (expression inner precedence) (expression again precedence) tokens := by
  have contains : ∀ {words tree}, IsTerm phrases precedence.tighter words tree →
      words ∈ spelled
        (operandPhrase ⟨IsStatement phrases, IsExpression phrases, IsTerm phrases⟩ precedence) := by
    intro words tree term
    cases precedence with
    | lowest => exact ⟨tree, .term term⟩
    | _ => exact ⟨tree, term⟩
  have whole : ∀ words ∈ operandWords phrases precedence,
      words ∈ spelled
        (operandPhrase ⟨IsStatement phrases, IsExpression phrases, IsTerm phrases⟩ precedence) := by
    rintro words ⟨tree, term | ⟨rfl, assigned⟩⟩
    · exact contains (term.loosen (Precedence.rank_le_unary _) precedence.tighter_ne_lowest)
    · exact ⟨tree, assigned⟩
  apply (operand_tracks tracked precedence legible).bind
  · intro words member
    exact fillable_of_nil (nil_mem_leftQuotient (whole words member))
  · intro left taken rest read split member
    obtain ⟨words, takes, operand⟩ := operand_sound tracked.sound legible read
    have legibleRest := legible.of_takes takes
    rcases operand with term | ⟨rfl, -, ended⟩
    · rw [takes.words_eq split]
      exact applications_tracks tracked contains term (Precedence.rank_le_unary _)
        (not_goesOn_unary rest) legibleRest legibleRest.short tracked.rounds
    · exact applications_tracks_of_not_goesOn ended (nil_mem_leftQuotient (whole _ member))

theorem countingLoop_tracks (legible : Legible inner.rounds tokens) :
    Tracks (Opens tokens)
      ((spelled (IsStatement phrases)).leftQuotient [.keyword "for", .symbol "("])
      (countingLoop inner) (countingLoop again) tokens := by
  have comma : Prompt inner.rounds _ _ _ :=
    expectSymbol_prompt (show .symbol "," ∈ fillers by decide)
  have closed : Prompt inner.rounds _ _ _ :=
    expectSymbol_prompt (show .symbol ")" ∈ fillers by decide)
  refine ((tracked.operand .lowest legible).then legible fun start => comma.seq fun _ =>
    (tracked.expression .lowest).seq fun test => comma.seq fun _ =>
      (tracked.expression .lowest).seq fun step => closed.seq fun _ =>
        (body_prompt tracked).map (Statement.forLoop start test step)).mono ?_
  rintro _ ⟨startWords, ⟨start, first⟩, _, ⟨_, rfl, _, ⟨testWords, ⟨test, second⟩, _, ⟨_, rfl, _,
    ⟨stepWords, ⟨step, third⟩, _, ⟨_, rfl, bodyWords, ⟨round, braced⟩, rfl⟩, rfl⟩, rfl⟩, rfl⟩, rfl⟩,
    rfl⟩
  exact ⟨_, by simpa using IsStatement.forLoop first second third braced⟩

theorem foreachLoop_tracks (running : RunsOverItems tokens)
    (legible : Legible inner.rounds tokens) :
    Tracks True ((spelled (IsStatement phrases)).leftQuotient [.keyword "for", .symbol "("])
      (foreachLoop inner) (foreachLoop again) tokens := by
  obtain ⟨item, rest, taken⟩ := running
  obtain ⟨identifier, _, rfl, named, taken⟩ := taken.uncons
  obtain ⟨colon, rfl, separated⟩ := Token.Takes.single_iff.mp taken
  have takes : ∀ inner others, foreachLoop inner (identifier :: colon :: others) =
      (inner.expression .lowest >>= fun items => expectSymbol ")" >>= fun _ =>
        body inner >>= fun round => pure (.foreachLoop item items round)) others := by
    intro inner others
    exact foreachLoop_of_takes ⟨[identifier, colon], rfl, by simp [named, separated]⟩
  have items := ((tracked.expression .lowest).seq fun items =>
    (expectSymbol_prompt (show .symbol ")" ∈ fillers by decide)).seq fun _ =>
      (body_prompt tracked).map (Statement.foreachLoop item items)).tracks legible.tail.tail
  have afterItem : Tracks True
      ((spelled (IsStatement phrases)).leftQuotient
        [.keyword "for", .symbol "(", .identifier item])
      (fun others => foreachLoop inner (identifier :: others))
      (fun others => foreachLoop again (identifier :: others)) (colon :: rest) := by
    refine items.cons separated (takes inner) (takes again) ?_
    rintro _ ⟨words, ⟨tree, inside⟩, _, ⟨_, rfl, bodyWords, ⟨round, braced⟩, rfl⟩, rfl⟩
    exact ⟨_, by simpa using IsStatement.foreachLoop item inside braced⟩
  exact afterItem.cons named (fun _ => rfl) (fun _ => rfl) fun _ member => member

theorem fillable_loopHead :
    Fillable ((spelled (IsStatement phrases)).leftQuotient [.keyword "for", .symbol "("]) := by
  obtain ⟨words, ⟨tree, inside⟩, lexed⟩ := tracked.operands .lowest
  have loop := IsStatement.foreachLoop "x" inside (.braced .nil)
  refine ⟨[.identifier "x", .symbol ":"] ++
    (words ++ [.symbol ")", .symbol "\x7b", .symbol "\x7d"]), ⟨_, loop⟩, ?_⟩
  rw [List.forall_mem_append, List.forall_mem_append]
  exact ⟨isLexed_fillers (by decide), lexed, isLexed_fillers (by decide)⟩

/-- Whether the loop runs over items shows only at the second word. An identifier in front of it is
taken either way. -/
theorem loopHead_prompt :
    Prompt inner.rounds
      ((spelled (IsStatement phrases)).leftQuotient [.keyword "for", .symbol "("])
      (loopHead inner) (loopHead again) := by
  refine ⟨fillable_loopHead tracked, fun {tokens} legible => ?_⟩
  by_cases running : RunsOverItems tokens
  · have chooses : ∀ inner tokens', tokens'.head? = tokens.head? → tokens'[1]? = tokens[1]? →
        loopHead inner tokens' = foreachLoop inner tokens' := by
      intro inner tokens' sameHead sameSecond
      apply loopHead_of_runsOverItems
      rwa [← runsOverItems_iff, sameHead, sameSecond, runsOverItems_iff]
    exact ((foreachLoop_tracks tracked running legible).of_second (chooses inner)
      (chooses again)).lazier False.elim
  · have counting := countingLoop_tracks tracked legible
    by_cases named : ∃ name following, Takes tokens [.identifier name] following
    · have opens : Opens tokens := by
        obtain ⟨name, following, taken⟩ := named
        exact ⟨_, taken.headWord?, .inr (.inr (.inl rfl))⟩
      have chooses : ∀ inner tokens', tokens'.head? = tokens.head? → tokens'[1]? = tokens[1]? →
          loopHead inner tokens' = countingLoop inner tokens' := by
        intro inner tokens' sameHead sameSecond
        apply loopHead_of_not_runsOverItems
        rwa [← runsOverItems_iff, sameHead, sameSecond, runsOverItems_iff]
      exact ((counting.lazier fun _ => opens).of_second (chooses inner)
        (chooses again)).lazier False.elim
    · have chooses : ∀ inner tokens', tokens'.head? = tokens.head? →
          loopHead inner tokens' = countingLoop inner tokens' := by
        intro inner tokens' sameHead
        apply loopHead_of_not_runsOverItems
        rw [← runsOverItems_iff, sameHead, Bool.and_eq_true, any_isIdentifier_iff]
        exact fun both => named both.1
      exact (counting.of_head (chooses inner) (chooses again)).lazier False.elim

/-- An expression in the place of a statement does not begin as the definition of a named function.
If so little of it has been read that it could still become one, it can be finished as a
definition too. -/
theorem expressionStatement_tracks (unnamed : ¬DefinesName tokens)
    (legible : Legible inner.rounds tokens) :
    Tracks (Opens tokens) (spelled (IsStatement phrases)) (expressionStatement inner)
      (expressionStatement again) tokens := by
  have reads := (tracked.operand .lowest legible).then legible fun tree =>
    (expectSymbol_prompt (show .symbol ";" ∈ fillers by decide)).map fun _ =>
      Statement.expression tree
  apply reads.narrow
  · rintro taken rest split ⟨words, ⟨tree, evaluated⟩, _, rfl, same⟩
    obtain ⟨last, before, -⟩ := Token.Takes.split ⟨taken, split, same.symm⟩
    rw [← same]
    exact ⟨_, .expression evaluated fun begins => unnamed (.of_beginsDefinition before begins)⟩
  · rintro taken rest split ⟨more, ⟨words, ⟨tree, evaluated⟩, _, rfl, same⟩, lexed⟩
    by_cases begins : BeginsDefinition words
    · obtain ⟨name, others, rfl⟩ := begins
      match taken with
      | [] => exact fillable_statement phrases
      | [token] =>
          obtain ⟨word, -⟩ := List.cons.inj same
          rw [List.map_singleton, ← word]
          exact fillable_definition phrases
      | token :: identifier :: front =>
          obtain ⟨word, same⟩ := List.cons.inj same
          obtain ⟨named, -⟩ := List.cons.inj same
          refine absurd ⟨name, front ++ rest, [token, identifier], split, ?_⟩ unnamed
          rw [List.map_cons, List.map_singleton, ← word, ← named]
    · refine ⟨more, ?_, lexed⟩
      rw [Language.mem_leftQuotient, ← same]
      exact ⟨_, .expression evaluated begins⟩

omit tracked in
theorem statement_tracks_of_word {token : Token} {word : Word} {language : Language Word}
    {next nextAgain : Parser Statement} (prompt : Prompt inner.rounds language next nextAgain)
    (spelling : token.word = word)
    (takes : ∀ rest, statementBegunBy inner word.kind word.lexeme (token :: rest) = next rest)
    (takesAgain : ∀ rest,
      statementBegunBy again word.kind word.lexeme (token :: rest) = nextAgain rest)
    (within : ∀ words ∈ language, word :: words ∈ spelled (IsStatement phrases))
    (legible : Legible inner.rounds (token :: tokens)) :
    Tracks False (spelled (IsStatement phrases)) (statement inner) (statement again)
      (token :: tokens) := by
  have begun : ∀ rest, Takes (token :: rest) [word] rest :=
    fun rest => spelling ▸ Token.Takes.single token rest
  refine ((prompt.tracks legible.tail).cons spelling ?_ ?_ within).lazier False.elim
  · exact fun rest => (statement_of_takes (begun rest)).trans (takes rest)
  · exact fun rest => (statement_of_takes (begun rest)).trans (takesAgain rest)

theorem statement_tracks_of_statementWords {token : Token} (member : token.word ∈ statementWords)
    (legible : Legible inner.rounds (token :: tokens)) :
    Tracks False (spelled (IsStatement phrases)) (statement inner) (statement again)
      (token :: tokens) := by
  have condition := condition_prompt tracked
  have body := body_prompt tracked
  have semicolon : Prompt inner.rounds _ _ _ :=
    expectSymbol_prompt (show .symbol ";" ∈ fillers by decide)
  simp only [statementWords, List.mem_cons, List.not_mem_nil, or_false] at member
  rcases member with word | word | word | word | word | word | word | word | word
  · have begun : ∀ rest, Takes (token :: rest) [.symbol "\x7b"] rest :=
      fun rest => word ▸ Token.Takes.single token rest
    refine (((body.map Statement.block).tracks legible).of_first
      (fun rest => statement_of_takes (begun rest))
      (fun rest => statement_of_takes (begun rest))).mono ?_
    rintro words ⟨trees, braced⟩
    exact ⟨_, .block braced⟩
  · refine statement_tracks_of_word (Prompt.pure .empty) word (fun _ => rfl) (fun _ => rfl)
      ?_ legible
    rintro _ rfl
    exact ⟨_, .empty⟩
  · have branches := condition.seq fun test => body.seq fun branch =>
      (alternatives_prompt tracked (Nat.le_refl _) tracked.rounds).map
        (Statement.conditional test branch)
    refine statement_tracks_of_word branches word (fun _ => rfl) (fun _ => rfl) ?_ legible
    rintro _ ⟨testWords, ⟨test, tested⟩, _, ⟨bodyWords, ⟨branch, braced⟩, otherWords,
      ⟨rest, others⟩, rfl⟩, rfl⟩
    exact ⟨_, by simpa using IsStatement.conditional tested braced others⟩
  · have rounds := condition.seq fun test => body.map (Statement.whileLoop test)
    refine statement_tracks_of_word rounds word (fun _ => rfl) (fun _ => rfl) ?_ legible
    rintro _ ⟨testWords, ⟨test, tested⟩, bodyWords, ⟨round, braced⟩, rfl⟩
    exact ⟨_, .whileLoop tested braced⟩
  · have loop := (expectSymbol_prompt (show .symbol "(" ∈ fillers by decide)).seq fun _ =>
      loopHead_prompt tracked
    refine statement_tracks_of_word loop word (fun _ => rfl) (fun _ => rfl) ?_ legible
    rintro _ ⟨_, rfl, words, member, rfl⟩
    exact member
  · have rounds := condition.seq fun count => body.map (Statement.repeatLoop count)
    refine statement_tracks_of_word rounds word (fun _ => rfl) (fun _ => rfl) ?_ legible
    rintro _ ⟨countWords, ⟨count, counted⟩, bodyWords, ⟨round, braced⟩, rfl⟩
    exact ⟨_, .repeatLoop counted braced⟩
  · have value := (tracked.expression .lowest).seq fun value =>
      semicolon.map fun _ => Statement.ret value
    refine statement_tracks_of_word value word (fun _ => rfl) (fun _ => rfl) ?_ legible
    rintro _ ⟨words, ⟨value, returned⟩, _, rfl, rfl⟩
    exact ⟨_, .ret returned⟩
  · refine statement_tracks_of_word (semicolon.map fun _ => .breakLoop) word (fun _ => rfl)
      (fun _ => rfl) ?_ legible
    rintro _ rfl
    exact ⟨_, .breakLoop⟩
  · refine statement_tracks_of_word (semicolon.map fun _ => .continueLoop) word
      (fun _ => rfl) (fun _ => rfl) ?_ legible
    rintro _ rfl
    exact ⟨_, .continueLoop⟩

/-- The word `def` is taken whether a name follows it or not. -/
theorem statement_tracks_of_def {token : Token} (word : token.word = .keyword "def")
    (legible : Legible inner.rounds (token :: tokens)) :
    Tracks False (spelled (IsStatement phrases)) (statement inner) (statement again)
      (token :: tokens) := by
  suffices Tracks True _ _ _ _ from this.lazier False.elim
  by_cases names : DefinesName (token :: tokens)
  · obtain ⟨name, rest, taken⟩ := id names
    obtain ⟨_, _, ⟨⟩, -, named⟩ := taken.uncons
    have defined := (definition_named_tracks tracked word named legible).map Statement.definition
    refine (defined.of_second
      (fun _ head second => statement_definition (names.of_second head second))
      (fun _ head second => statement_definition (names.of_second head second))).mono ?_
    rintro _ ⟨_, rfl, _, ⟨_, rfl, _, ⟨parameterWords, ⟨parameters, listed⟩, bodyWords,
      ⟨commands, braced⟩, rfl⟩, rfl⟩, rfl⟩
    have function := IsFunction.named name listed braced
    exact ⟨_, .definition ⟨name, _, rfl⟩ function⟩
  · have opens : Opens (token :: tokens) := ⟨_, rfl, by simp [word, BeginsOperand]⟩
    have chooses : ∀ inner tokens', tokens'.head? = (token :: tokens).head? →
        tokens'[1]? = (token :: tokens)[1]? →
        statement inner tokens' = expressionStatement inner tokens' := by
      intro inner tokens' head second
      obtain ⟨rest, rfl⟩ := List.head?_eq_some_iff.mp head
      have begun : Takes (token :: rest) [.keyword "def"] rest :=
        word ▸ Token.Takes.single token rest
      exact statement_expression begun (by decide)
        fun others => names (others.of_second head.symm second.symm)
    have literal := (expressionStatement_tracks tracked names legible).lazier fun _ : True => opens
    exact literal.of_second (chooses inner) (chooses again)

theorem statement_prompt :
    Prompt inner.rounds (spelled (IsStatement phrases)) (statement inner) (statement again) := by
  refine ⟨fillable_statement phrases, fun {tokens} legible => ?_⟩
  cases tokens with
  | nil => exact tracks_end id rfl (fillable_statement phrases)
  | cons token following =>
      by_cases member : token.word ∈ statementWords
      · exact statement_tracks_of_statementWords tracked member legible
      · by_cases word : token.word = .keyword "def"
        · exact statement_tracks_of_def tracked word legible
        · have unnamed : ∀ rest, ¬DefinesName (token :: rest) := by
            rintro rest ⟨name, following, taken⟩
            exact word (Option.some.inj taken.headWord?)
          have chooses : ∀ inner rest,
              statement inner (token :: rest) = expressionStatement inner (token :: rest) :=
            fun _ rest => statement_expression (Token.Takes.single token rest) member (unnamed rest)
          exact ((expressionStatement_tracks tracked (unnamed _) legible).of_first (chooses inner)
            (chooses again)).lazier False.elim

theorem statementsUntilEnd_prompt {rounds roundsAgain : Nat} (within : rounds ≤ inner.rounds)
    (atMost : rounds ≤ roundsAgain) (found : List Statement) :
    Prompt rounds (spelled (Sequence phrases.statement))
      (statementsUntilEnd inner.statement rounds found)
      (statementsUntilEnd again.statement roundsAgain found) := by
  have none : [] ∈ spelled (Sequence phrases.statement) := ⟨_, .nil⟩
  induction rounds generalizing roundsAgain found with
  | zero =>
      refine ⟨fillable_of_nil none, fun {tokens} legible => ?_⟩
      rw [legible.eq_nil]
      exact tracks_nil rfl (statementsUntilEnd_nil roundsAgain found) none
  | succ rounds induction =>
      obtain ⟨roundsAgain, rfl⟩ := Nat.exists_eq_succ_of_ne_zero (Nat.ne_zero_of_lt atMost)
      have more := (tracked.statement.fewer within).seq_shorter tracked.nonempty fun statement =>
        induction (Nat.le_of_succ_le within) (Nat.le_of_succ_le_succ atMost) (statement :: found)
      refine ⟨fillable_of_nil none, fun {tokens} legible => ?_⟩
      cases tokens with
      | nil => exact tracks_nil rfl rfl none
      | cons token following =>
          have goesOn : ∀ (reader : Parser Statement) rounds rest,
              statementsUntilEnd reader (rounds + 1) found (token :: rest) =
                (reader >>= fun statement =>
                  statementsUntilEnd reader rounds (statement :: found)) (token :: rest) :=
            fun _ _ _ => rfl
          refine ((more.tracks legible).of_first (goesOn inner.statement rounds)
            (goesOn again.statement roundsAgain)).mono ?_
          rintro _ ⟨words, ⟨tree, head⟩, others, ⟨trees, tail⟩, rfl⟩
          exact ⟨_, .cons head tail⟩

end Rules

theorem Sound.widen {inner : Inner} {fewer more : Phrases} (sound : Sound inner fewer)
    (within : fewer.Within more) : Sound inner more where
  statement legible success := by
    obtain ⟨words, taken, phrase⟩ := sound.statement legible success
    exact ⟨words, taken, within.statement phrase⟩
  expression precedence tokens rest tree legible success := by
    obtain ⟨words, taken, phrase⟩ := sound.expression precedence legible success
    refine ⟨words, taken, ?_⟩
    cases precedence with
    | lowest => exact within.expression phrase
    | _ => exact within.term phrase
  ended legible success := sound.ended legible success

/-- One level more than there is room for, so that there are phrases at all. -/
theorem tracked_within {rounds roundsAgain room roomAgain : Nat} (atMost : rounds ≤ roundsAgain)
    (roomier : room ≤ roomAgain) :
    Tracked ⟨statementWithin rounds room, expressionWithin rounds room, rounds⟩
      ⟨statementWithin roundsAgain roomAgain, expressionWithin roundsAgain roomAgain, roundsAgain⟩
      (Grammar.phrases (room + 1)) := by
  induction room generalizing roomAgain with
  | zero =>
      exact
        { sound := (sound_within rounds 0).widen (phrases_within_succ 0)
          rounds := atMost
          statement := ⟨fillable_statement _, fun _ => tracks_tooDeep⟩
          nonempty := fun ⟨_, statement⟩ => statement.words_ne_nil rfl
          operands := fillable_operand _
          operand := fun _ _ _ => tracks_tooDeep }
  | succ room induction =>
      obtain ⟨roomAgain, rfl⟩ := Nat.exists_eq_succ_of_ne_zero (Nat.ne_zero_of_lt roomier)
      have further := induction (Nat.le_of_succ_le_succ roomier)
      exact
        { sound := (sound_within rounds (room + 1)).widen (phrases_within_succ (room + 1))
          rounds := atMost
          statement := statement_prompt further
          nonempty := fun ⟨_, statement⟩ => statement.words_ne_nil rfl
          operands := fillable_operand _
          operand := fun precedence _ legible => expression_tracks further precedence legible }

end Easel.Parser
