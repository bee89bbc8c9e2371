import Easel.Proofs.Parser.Soundness
import Mathlib.Computability.MyhillNerode

/-!
How far a reader has got, and what it has looked at. A reader is followed on two lists of tokens
that begin alike. What it accepts it accepts again if the tokens behind it begin alike, since no
reader looks further than one token ahead of what it takes. What it refuses, it refuses because
of one token: the tokens in front of that one can be completed to a phrase, and with that one
behind them they are refused again, whatever follows. If the tokens come to an end too early, all
of them can be completed.

The two readers that are compared may have different room for nesting and for rounds. Nothing is
said of a reader that gives up for lack of room.
-/

namespace Easel

def Word.IsLexed (word : Word) : Prop :=
  ∃ characters, word ∈ Token.words characters

theorem Token.isLexed_of_word {token : Token} (lexed : token.word.IsLexed) : token.IsLexed := by
  obtain ⟨characters, member⟩ := lexed
  refine ⟨String.ofList characters, ?_⟩
  rw [show characters = (String.ofList characters).toList from (String.toList_ofList).symm,
    ← map_word_tokenize] at member
  obtain ⟨emitted, emittedMember, same⟩ := List.mem_map.mp member
  exact ⟨emitted, emittedMember, congrArg Word.kind same, congrArg Word.lexeme same⟩

namespace Parser

def Fillable (language : Language Word) : Prop :=
  ∃ words ∈ language, ∀ word ∈ words, word.IsLexed

section Fillable

variable {language other : Language Word} {words : List Word}

theorem Fillable.mono (fillable : Fillable language) (within : ∀ words ∈ language, words ∈ other) :
    Fillable other := by
  obtain ⟨words, member, lexed⟩ := fillable
  exact ⟨words, within words member, lexed⟩

theorem fillable_of_nil (empty : [] ∈ language) : Fillable language :=
  ⟨[], empty, nofun⟩

theorem Fillable.mul (first : Fillable language) (second : Fillable other) :
    Fillable (language * other) := by
  obtain ⟨words, member, lexed⟩ := first
  obtain ⟨more, memberMore, lexedMore⟩ := second
  refine ⟨words ++ more, Language.append_mem_mul member memberMore, ?_⟩
  exact List.forall_mem_append.mpr ⟨lexed, lexedMore⟩

theorem nil_mem_leftQuotient (member : words ∈ language) : [] ∈ language.leftQuotient words := by
  rwa [Language.mem_leftQuotient, List.append_nil]

theorem mem_leftQuotient_mul (member : words ∈ language) :
    ∀ more ∈ other, more ∈ (language * other).leftQuotient words :=
  fun _ following => Language.append_mem_mul member following

theorem Fillable.extend (fillable : Fillable (language.leftQuotient words))
    (extends_ : ∀ whole ∈ language, Fillable (other.leftQuotient whole)) :
    Fillable (other.leftQuotient words) := by
  obtain ⟨more, member, lexed⟩ := fillable
  obtain ⟨rest, memberRest, lexedRest⟩ := extends_ _ member
  refine ⟨more ++ rest, ?_, List.forall_mem_append.mpr ⟨lexed, lexedRest⟩⟩
  rw [Language.mem_leftQuotient, ← List.append_assoc]
  exact memberRest

end Fillable

variable {α β : Type}

/-- How the reading of tokens ends, and how another reader fares on tokens that begin alike. If
the reader is eager, it has taken a token in any case. -/
inductive Tracking (eager : Prop) (language : Language Word) (again : Parser α)
    (tokens : List Token) : Except SyntaxError (α × List Token) → Prop
  | accepted (taken : List Token) {rest : List Token} {value : α} (split : tokens = taken ++ rest)
      (nonempty : eager → taken ≠ []) (spelled : taken.map Token.word ∈ language)
      (accepts : ∀ other, other.head? = rest.head? → again (taken ++ other) = .ok (value, other)) :
      Tracking eager language again tokens (.ok (value, rest))
  | refused (taken following : List Token) {token : Token} {expected : Expectation}
      (split : tokens = taken ++ token :: following) (nonempty : eager → taken ≠ [])
      (fillable : Fillable (language.leftQuotient (taken.map Token.word)))
      (refuses : ∀ other, again (taken ++ token :: other) = .error (.atToken token expected)) :
      Tracking eager language again tokens (.error (.atToken token expected))
  | ended {expected : Expectation} (nonempty : eager → tokens ≠ [])
      (fillable : Fillable (language.leftQuotient (tokens.map Token.word))) :
      Tracking eager language again tokens (.error (.unexpectedEnd expected))
  | tooDeep {position : Position} {limit : Nat} :
      Tracking eager language again tokens (.error (.tooDeep position limit))

def Tracks (eager : Prop) (language : Language Word) (reader again : Parser α)
    (tokens : List Token) : Prop :=
  Tracking eager language again tokens (reader tokens)

variable {eager : Prop} {language other : Language Word} {tokens : List Token}

theorem head?_append_of_same {taken rest following : List Token}
    (same : following.head? = rest.head?) : (taken ++ following).head? = (taken ++ rest).head? := by
  cases taken with
  | nil => exact same
  | cons token more => rfl

theorem second?_append_of_same {taken rest following : List Token} (nonempty : taken ≠ [])
    (same : following.head? = rest.head?) : (taken ++ following)[1]? = (taken ++ rest)[1]? := by
  match taken with
  | [] => exact absurd rfl nonempty
  | [token] => simpa [← List.head?_eq_getElem?] using same
  | token :: second :: more => rfl

theorem tracks_pure {value : α} (empty : [] ∈ language) :
    Tracks False language (pure value) (pure value) tokens :=
  .accepted [] rfl False.elim empty fun _ _ => rfl

theorem tracks_nil {reader again : Parser α} {value : α} (reads : reader [] = .ok (value, []))
    (readsAgain : again [] = .ok (value, [])) (empty : [] ∈ language) :
    Tracks False language reader again [] := by
  rw [Tracks, reads]
  refine .accepted [] rfl False.elim empty fun following nothing => ?_
  rw [List.head?_eq_none_iff.mp nothing]
  exact readsAgain

theorem tracks_tooDeep {again : Parser α} : Tracks eager language tooDeep again tokens :=
  .tooDeep

theorem tracks_end {reader again : Parser α} {expected : Expectation} (idle : ¬eager)
    (ended : reader [] = .error (.unexpectedEnd expected)) (fillable : Fillable language) :
    Tracks eager language reader again [] := by
  rw [Tracks, ended]
  exact .ended (fun eagerly => absurd eagerly idle) fillable

theorem tracks_refusal {reader again : Parser α} {token : Token} {expected : Expectation}
    (idle : ¬eager) (refuses : reader (token :: tokens) = .error (.atToken token expected))
    (refusesAgain : ∀ other, again (token :: other) = .error (.atToken token expected))
    (fillable : Fillable language) :
    Tracks eager language reader again (token :: tokens) := by
  rw [Tracks, refuses]
  exact .refused [] tokens rfl (fun eagerly => absurd eagerly idle) fillable refusesAgain

/-- It is enough to know of another language what concerns the beginnings of these tokens. -/
theorem Tracks.narrow {reader again : Parser α} (tracks : Tracks eager language reader again tokens)
    (spelledToo : ∀ taken rest, tokens = taken ++ rest → taken.map Token.word ∈ language →
      taken.map Token.word ∈ other)
    (fillableToo : ∀ taken rest, tokens = taken ++ rest →
      Fillable (language.leftQuotient (taken.map Token.word)) →
      Fillable (other.leftQuotient (taken.map Token.word))) :
    Tracks eager other reader again tokens := by
  rw [Tracks] at tracks ⊢
  generalize reader tokens = result at tracks ⊢
  cases tracks with
  | accepted taken split nonempty spelled accepts =>
      exact .accepted taken split nonempty (spelledToo _ _ split spelled) accepts
  | refused taken following split nonempty fillable refuses =>
      exact .refused taken following split nonempty (fillableToo _ _ split fillable) refuses
  | ended nonempty fillable =>
      exact .ended nonempty (fillableToo tokens [] (List.append_nil _).symm fillable)
  | tooDeep => exact .tooDeep

theorem Tracks.mono {reader again : Parser α} (tracks : Tracks eager language reader again tokens)
    (within : ∀ words ∈ language, words ∈ other) : Tracks eager other reader again tokens :=
  tracks.narrow (fun _ _ _ member => within _ member)
    fun _ _ _ fillable => fillable.mono fun _ member => within _ member

theorem Tracks.lazier {lazy : Prop} {reader again : Parser α}
    (tracks : Tracks eager language reader again tokens) (less : lazy → eager) :
    Tracks lazy language reader again tokens := by
  rw [Tracks] at tracks ⊢
  generalize reader tokens = result at tracks ⊢
  cases tracks with
  | accepted taken split nonempty spelled accepts =>
      exact .accepted taken split (fun eagerly => nonempty (less eagerly)) spelled accepts
  | refused taken following split nonempty fillable refuses =>
      exact .refused taken following split (fun eagerly => nonempty (less eagerly)) fillable refuses
  | ended nonempty fillable => exact .ended (fun eagerly => nonempty (less eagerly)) fillable
  | tooDeep => exact .tooDeep

theorem Tracks.of_head {reader again chosen chosenAgain : Parser α}
    (tracks : Tracks eager language chosen chosenAgain tokens)
    (chooses : ∀ tokens', tokens'.head? = tokens.head? → reader tokens' = chosen tokens')
    (choosesAgain : ∀ tokens', tokens'.head? = tokens.head? → again tokens' = chosenAgain tokens') :
    Tracks eager language reader again tokens := by
  rw [Tracks] at tracks ⊢
  rw [chooses tokens rfl]
  generalize chosen tokens = result at tracks ⊢
  cases tracks with
  | accepted taken split nonempty spelled accepts =>
      refine .accepted taken split nonempty spelled fun following same => ?_
      rw [choosesAgain _ (split ▸ head?_append_of_same same)]
      exact accepts following same
  | refused taken last split nonempty fillable refuses =>
      refine .refused taken last split nonempty fillable fun following => ?_
      rw [choosesAgain _ (split ▸ head?_append_of_same rfl)]
      exact refuses following
  | ended nonempty fillable => exact .ended nonempty fillable
  | tooDeep => exact .tooDeep

theorem Tracks.of_first {reader again chosen chosenAgain : Parser α} {token : Token}
    (tracks : Tracks eager language chosen chosenAgain (token :: tokens))
    (chooses : ∀ rest, reader (token :: rest) = chosen (token :: rest))
    (choosesAgain : ∀ rest, again (token :: rest) = chosenAgain (token :: rest)) :
    Tracks eager language reader again (token :: tokens) := by
  apply tracks.of_head
  · intro tokens' head
    obtain ⟨rest, rfl⟩ := List.head?_eq_some_iff.mp head
    exact chooses rest
  · intro tokens' head
    obtain ⟨rest, rfl⟩ := List.head?_eq_some_iff.mp head
    exact choosesAgain rest

/-- The token after the current one chooses too. A reader that takes the current one in any case
has looked no further ahead. -/
theorem Tracks.of_second {reader again chosen chosenAgain : Parser α}
    (tracks : Tracks True language chosen chosenAgain tokens)
    (chooses : ∀ tokens', tokens'.head? = tokens.head? → tokens'[1]? = tokens[1]? →
      reader tokens' = chosen tokens')
    (choosesAgain : ∀ tokens', tokens'.head? = tokens.head? → tokens'[1]? = tokens[1]? →
      again tokens' = chosenAgain tokens') : Tracks True language reader again tokens := by
  rw [Tracks] at tracks ⊢
  rw [chooses tokens rfl rfl]
  generalize chosen tokens = result at tracks ⊢
  cases tracks with
  | accepted taken split nonempty spelled accepts =>
      refine .accepted taken split nonempty spelled fun following same => ?_
      rw [choosesAgain _ (split ▸ head?_append_of_same same)
        (split ▸ second?_append_of_same (nonempty trivial) same)]
      exact accepts following same
  | refused taken last split nonempty fillable refuses =>
      refine .refused taken last split nonempty fillable fun following => ?_
      rw [choosesAgain _ (split ▸ head?_append_of_same rfl)
        (split ▸ second?_append_of_same (nonempty trivial) rfl)]
      exact refuses following
  | ended nonempty fillable => exact .ended nonempty fillable
  | tooDeep => exact .tooDeep

theorem Tracks.cons {reader again next nextAgain : Parser α} {token : Token} {word : Word}
    (tracks : Tracks eager language next nextAgain tokens) (spelling : token.word = word)
    (takes : ∀ rest, reader (token :: rest) = next rest)
    (takesAgain : ∀ rest, again (token :: rest) = nextAgain rest)
    (within : ∀ words ∈ language, word :: words ∈ other) :
    Tracks True other reader again (token :: tokens) := by
  subst spelling
  rw [Tracks] at tracks ⊢
  rw [takes]
  have fill : ∀ {words : List Word}, Fillable (language.leftQuotient words) →
      Fillable (other.leftQuotient (token.word :: words)) :=
    fun fillable => fillable.mono fun _ member => within _ member
  generalize next tokens = result at tracks ⊢
  cases tracks with
  | accepted taken split _ spelled accepts =>
      refine .accepted (token :: taken) (by rw [split, List.cons_append])
        (fun _ => List.cons_ne_nil _ _) (within _ spelled) fun following same => ?_
      rw [List.cons_append, takesAgain]
      exact accepts following same
  | refused taken last split _ fillable refuses =>
      refine .refused (token :: taken) last (by rw [split, List.cons_append])
        (fun _ => List.cons_ne_nil _ _) (fill fillable) fun following => ?_
      rw [List.cons_append, takesAgain]
      exact refuses following
  | ended _ fillable => exact .ended (fun _ => List.cons_ne_nil _ _) (fill fillable)
  | tooDeep => exact .tooDeep

/-- One reader behind another. What the first accepts is the beginning of a phrase, and the second
is followed on what is missing from it. -/
theorem Tracks.bind {reader again : Parser α} {next nextAgain : α → Parser β}
    (first : Tracks eager language reader again tokens)
    (extends_ : ∀ words ∈ language, Fillable (other.leftQuotient words))
    (second : ∀ {value taken rest}, reader tokens = .ok (value, rest) → tokens = taken ++ rest →
      taken.map Token.word ∈ language →
      Tracks False (other.leftQuotient (taken.map Token.word)) (next value) (nextAgain value)
        rest) :
    Tracks eager other (reader >>= next) (again >>= nextAgain) tokens := by
  rw [Tracks] at first ⊢
  rw [bind_apply]
  generalize read : reader tokens = result at first
  cases first with
  | @accepted taken rest value split nonempty spelled accepts =>
      have later := second read split spelled
      rw [Tracks] at later
      dsimp only
      have nonemptyAppend : ∀ {more : List Token}, eager → taken ++ more ≠ [] := fun eagerly =>
        List.append_ne_nil_of_left_ne_nil (nonempty eagerly) _
      generalize next value rest = result at later
      cases later with
      | accepted more splitLater _ spelledLater acceptsLater =>
          refine .accepted (taken ++ more) ?_ nonemptyAppend ?_ fun following same => ?_
          · rw [split, splitLater, List.append_assoc]
          · rw [List.map_append]
            exact spelledLater
          · rw [List.append_assoc, bind_apply,
              accepts _ (splitLater ▸ head?_append_of_same same)]
            exact acceptsLater following same
      | refused more last splitLater _ fillable refuses =>
          refine .refused (taken ++ more) last ?_ nonemptyAppend ?_ fun following => ?_
          · rw [split, splitLater, List.append_assoc]
          · rw [List.map_append, Language.leftQuotient_append]
            exact fillable
          · rw [List.append_assoc, bind_apply, accepts _ (splitLater ▸ head?_append_of_same rfl)]
            exact refuses following
      | ended _ fillable =>
          refine .ended (fun eagerly => split ▸ nonemptyAppend eagerly) ?_
          rw [split, List.map_append, Language.leftQuotient_append]
          exact fillable
      | tooDeep => exact .tooDeep
  | refused taken last split nonempty fillable refuses =>
      refine .refused taken last split nonempty (fillable.extend extends_) fun following => ?_
      rw [bind_apply, refuses]
  | ended nonempty fillable => exact .ended nonempty (fillable.extend extends_)
  | tooDeep => exact .tooDeep

theorem Tracks.seq {reader again : Parser α} {next nextAgain : α → Parser β}
    (first : Tracks eager language reader again tokens) (fillable : Fillable other)
    (second : ∀ {value taken rest}, tokens = taken ++ rest → taken.map Token.word ∈ language →
      Tracks False other (next value) (nextAgain value) rest) :
    Tracks eager (language * other) (reader >>= next) (again >>= nextAgain) tokens := by
  apply first.bind
  · intro words member
    exact fillable.mono (mem_leftQuotient_mul member)
  · intro value taken rest _ split spelled
    exact (second split spelled).mono (mem_leftQuotient_mul spelled)

theorem Tracks.map {reader again : Parser α} (tracks : Tracks eager language reader again tokens)
    (change : α → β) :
    Tracks eager language (reader >>= fun value => pure (change value))
      (again >>= fun value => pure (change value)) tokens := by
  rw [← mul_one language]
  apply tracks.seq (fillable_of_nil Language.nil_mem_one)
  intro value taken rest _ _
  exact tracks_pure Language.nil_mem_one

/-- A reader that refuses a token as soon as nothing can be made of it, whatever the tokens of the
text. -/
structure Prompt (rounds : Nat) (language : Language Word) (reader again : Parser α) : Prop where
  fillable : Fillable language
  tracks : ∀ {tokens}, Legible rounds tokens → Tracks False language reader again tokens

theorem Legible.of_split {rounds : Nat} {taken rest : List Token} (legible : Legible rounds tokens)
    (split : tokens = taken ++ rest) : Legible rounds rest :=
  legible.of_takes ⟨taken, split, rfl⟩

theorem Legible.tail {rounds : Nat} {token : Token} (legible : Legible rounds (token :: tokens)) :
    Legible rounds tokens :=
  legible.of_takes (Token.Takes.single token tokens)

theorem Legible.eq_nil (legible : Legible 0 tokens) : tokens = [] :=
  List.length_eq_zero_iff.mp (Nat.le_zero.mp legible.short)

theorem Legible.shorter {rounds : Nat} {token : Token}
    (legible : Legible (rounds + 1) (token :: tokens)) : Legible rounds tokens :=
  ⟨Nat.le_of_succ_le_succ legible.short, legible.tail.lexed⟩

section Prompt

variable {rounds : Nat} {reader again : Parser α} {next nextAgain : α → Parser β}

theorem Tracks.then [Nonempty α] (first : Tracks eager language reader again tokens)
    (legible : Legible rounds tokens)
    (second : ∀ value, Prompt rounds other (next value) (nextAgain value)) :
    Tracks eager (language * other) (reader >>= next) (again >>= nextAgain) tokens :=
  first.seq (second Classical.ofNonempty).fillable fun split _ =>
    (second _).tracks (legible.of_split split)

namespace Prompt

protected theorem pure (value : α) : Prompt rounds 1 (pure value) (pure value) :=
  ⟨fillable_of_nil Language.nil_mem_one, fun _ => tracks_pure Language.nil_mem_one⟩

theorem mono (prompt : Prompt rounds language reader again)
    (within : ∀ words ∈ language, words ∈ other) : Prompt rounds other reader again :=
  ⟨prompt.fillable.mono within, fun legible => (prompt.tracks legible).mono within⟩

theorem fewer {less : Nat} (prompt : Prompt rounds language reader again) (atMost : less ≤ rounds) :
    Prompt less language reader again :=
  ⟨prompt.fillable,
    fun legible => prompt.tracks ⟨Nat.le_trans legible.short atMost, legible.lexed⟩⟩

theorem seq [Nonempty α] (first : Prompt rounds language reader again)
    (second : ∀ value, Prompt rounds other (next value) (nextAgain value)) :
    Prompt rounds (language * other) (reader >>= next) (again >>= nextAgain) :=
  ⟨first.fillable.mul (second Classical.ofNonempty).fillable,
    fun legible => (first.tracks legible).then legible second⟩

/-- Fewer rounds are enough behind a phrase that has words. -/
theorem seq_shorter [Nonempty α] (first : Prompt (rounds + 1) language reader again)
    (nonempty : [] ∉ language)
    (second : ∀ value, Prompt rounds other (next value) (nextAgain value)) :
    Prompt (rounds + 1) (language * other) (reader >>= next) (again >>= nextAgain) := by
  have fillable : Fillable other := (second Classical.ofNonempty).fillable
  refine ⟨first.fillable.mul fillable, fun {tokens} legible => ?_⟩
  apply (first.tracks legible).seq fillable
  intro value taken rest split member
  refine (second value).tracks ?_
  cases taken with
  | nil => exact absurd member nonempty
  | cons token taken =>
      subst split
      exact legible.shorter.of_split rfl

theorem map (prompt : Prompt rounds language reader again) (change : α → β) :
    Prompt rounds language (reader >>= fun value => pure (change value))
      (again >>= fun value => pure (change value)) :=
  ⟨prompt.fillable, fun legible => (prompt.tracks legible).map change⟩

end Prompt

end Prompt

end Parser

end Easel
