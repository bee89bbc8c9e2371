import Easel.Proofs.Lexemes.Bytes
import Easel.Proofs.Lexemes.Patterns

/-!
The tokens of a text and their places. The lexemes are the text itself but for blanks between them,
and the place of a token is counted out of what stands before it: the row from its newlines, the
column from the bytes behind the last of them. The place of a token tells where in the text it
begins, and what is read there is the longest match of the lexeme grammar. The one thing that is
lost is the text behind a quote that is never closed.
-/

namespace Easel

namespace Position

def behind (text : List Char) : Position :=
  ⟨1 + text.count '\n', 1 + Text.size (text.rtakeWhile (· ≠ '\n'))⟩

theorem advance_behind (text : List Char) (c : Char) :
    (behind text).advance c = behind (text ++ [c]) := by
  unfold advance behind
  rw [List.count_append, List.rtakeWhile_concat]
  by_cases newline : c = '\n'
  · rw [if_pos newline, newline]
    rfl
  · have counted : [c].count '\n' = 0 := List.count_eq_zero.mpr (by simpa using Ne.symm newline)
    rw [if_neg newline, if_pos (decide_eq_true newline), counted, Text.size_append, Text.size_cons,
      Text.size_nil, Nat.add_zero, Nat.add_zero, ← Nat.add_assoc]

theorem advanceOver_behind (text more : List Char) :
    (behind text).advanceOver more = behind (text ++ more) := by
  induction more generalizing text with
  | nil => rw [List.append_nil]; rfl
  | cons c more induction =>
      have moved := induction (text ++ [c])
      rw [← advance_behind, List.append_assoc] at moved
      exact moved

theorem eq_nil_of_behind_append {text more : List Char}
    (same : behind (text ++ more) = behind text) : more = [] := by
  have rows : 1 + (text ++ more).count '\n' = 1 + text.count '\n' := congrArg Position.row same
  have columns : 1 + Text.size ((text ++ more).rtakeWhile (· ≠ '\n')) =
      1 + Text.size (text.rtakeWhile (· ≠ '\n')) := congrArg Position.col same
  have unbroken : '\n' ∉ more := by
    rw [List.count_append] at rows
    exact List.count_eq_zero.mp (by omega)
  have line : (text ++ more).rtakeWhile (· ≠ '\n') = text.rtakeWhile (· ≠ '\n') ++ more := by
    have all : ∀ c ∈ more.reverse, decide (c ≠ '\n') = true := by
      intro c member
      have different : c ≠ '\n' := fun newline => unbroken (newline ▸ List.mem_reverse.mp member)
      exact decide_eq_true different
    rw [List.rtakeWhile, List.reverse_append, List.takeWhile_append_of_pos all, List.reverse_append,
      List.reverse_reverse, List.rtakeWhile]
  rw [line, Text.size_append] at columns
  cases more with
  | nil => rfl
  | cons c more =>
      have positive := c.utf8Size_pos
      rw [Text.size_cons] at columns
      omega

theorem behind_eq_iff {text front other : List Char} (begins : front <+: text)
    (beginsToo : other <+: text) : behind front = behind other ↔ front = other := by
  constructor
  · intro same
    rcases List.prefix_or_prefix_of_prefix begins beginsToo with ⟨more, rfl⟩ | ⟨more, rfl⟩
    · rw [eq_nil_of_behind_append same.symm, List.append_nil]
    · rw [eq_nil_of_behind_append same, List.append_nil]
  · intro same
    rw [same]

end Position

namespace Token

/-- An opening quote that nothing closes. -/
def IsUnclosed (token : Token) : Prop :=
  token.kind = .illegal ∧ token.lexeme = "\""

/-- The text that follows `before` consists of the lexemes of the tokens, in order and each at its
place, with blanks before, between and behind them. Nothing of it is left out, unless the last token
is a quote that nothing closes. -/
inductive Covers : (before text : List Char) → List Token → Prop where
  | done {before blanks : List Char} (blank : ∀ c ∈ blanks, isBlank c = true) :
      Covers before blanks []
  | next {before blanks rest : List Char} {token : Token} {tokens : List Token}
      (blank : ∀ c ∈ blanks, isBlank c = true) (some : token.lexeme ≠ "")
      (closed : ¬token.IsUnclosed) (place : token.position = .behind (before ++ blanks))
      (covered : Covers (before ++ blanks ++ token.lexeme.toList) rest tokens) :
      Covers before (blanks ++ token.lexeme.toList ++ rest) (token :: tokens)
  | unclosed {before blanks rest : List Char} {token : Token}
      (blank : ∀ c ∈ blanks, isBlank c = true) (unclosed : token.IsUnclosed)
      (place : token.position = .behind (before ++ blanks)) (absent : '"' ∉ rest) :
      Covers before (blanks ++ token.lexeme.toList ++ rest) [token]

theorem Covers.blank {before text : List Char} {tokens : List Token} {c : Char}
    (blank : isBlank c = true) (covers : Covers (before ++ [c]) text tokens) :
    Covers before (c :: text) tokens := by
  have moved : ∀ blanks, before ++ [c] ++ blanks = before ++ c :: blanks := by
    intro blanks
    rw [List.append_assoc, List.singleton_append]
  cases covers with
  | done blanks => exact .done (List.forall_mem_cons.mpr ⟨blank, blanks⟩)
  | next blanks some closed place covered =>
      rw [moved] at place covered
      exact .next (List.forall_mem_cons.mpr ⟨blank, blanks⟩) some closed place covered
  | unclosed blanks unclosed place absent =>
      rw [moved] at place
      exact .unclosed (List.forall_mem_cons.mpr ⟨blank, blanks⟩) unclosed place absent

theorem eq_quote_of_ofList {lexeme : List Char} (spelled : String.ofList lexeme = "\"") :
    lexeme = ['"'] := by
  rw [← String.toList_ofList (l := lexeme), spelled]
  rfl

theorem Covers.lexeme {before lexeme rest : List Char} {kind : Kind} {tokens : List Token}
    (some : lexeme ≠ []) (closed : ¬(kind = .illegal ∧ lexeme = ['"']))
    (covered : Covers (before ++ lexeme) rest tokens) :
    Covers before (lexeme ++ rest) (⟨kind, String.ofList lexeme, .behind before⟩ :: tokens) := by
  have blank : ∀ c ∈ ([] : List Char), isBlank c = true := List.forall_mem_nil _
  have place : Position.behind before = .behind (before ++ []) := by rw [List.append_nil]
  have spelled : String.ofList lexeme ≠ "" := by
    intro empty
    exact some (String.ofList_eq_empty_iff.mp empty)
  have terminated : ¬IsUnclosed ⟨kind, String.ofList lexeme, .behind before⟩ := by
    intro unclosed
    exact closed ⟨unclosed.1, eq_quote_of_ofList unclosed.2⟩
  have behind : Covers (before ++ [] ++ (String.ofList lexeme).toList) rest tokens := by
    rwa [List.append_nil, String.toList_ofList]
  have covers := Covers.next blank spelled terminated place behind
  rwa [List.nil_append, String.toList_ofList] at covers

theorem scanAll_found (found : List Token) (place : Position) (characters : List Char) :
    scanAll found place characters = found.reverse ++ scanAll [] place characters := by
  fun_induction words characters generalizing found place with
  | case1 => rw [scanAll_nil, scanAll_nil, List.reverse_nil, List.append_nil]
  | case2 c following blank induction =>
      rw [scanAll, if_pos blank, induction, scanAll, if_pos blank]
  | case3 c following mark induction =>
      have visible : isBlank c = false := by simpa using mark
      rw [scanAll_cons _ _ visible, scanAll_cons _ _ visible, induction, induction [_]]
      simp

theorem scanAll_blank {c : Char} (blank : isBlank c = true) (before following : List Char) :
    scanAll [] (.behind before) (c :: following) =
      scanAll [] (.behind (before ++ [c])) following := by
  rw [scanAll, if_pos blank, Position.advance_behind]

theorem scanAll_visible {c : Char} (visible : isBlank c = false) (before following : List Char) :
    scanAll [] (.behind before) (c :: following) =
      ⟨(scan c following).kind, String.ofList (scan c following).lexeme, .behind before⟩ ::
        scanAll [] (.behind (before ++ (scan c following).lexeme)) (scan c following).rest := by
  rw [scanAll_cons _ _ visible, scanAll_found, Position.advanceOver_behind]
  rfl

theorem covers_scanAll (before characters : List Char) :
    Covers before characters (scanAll [] (.behind before) characters) := by
  fun_induction words characters generalizing before with
  | case1 =>
      rw [scanAll_nil]
      exact .done (List.forall_mem_nil _)
  | case2 c following blank induction =>
      rw [scanAll_blank blank]
      exact (induction (before ++ [c])).blank blank
  | case3 c following mark induction =>
      have visible : isBlank c = false := by simpa using mark
      have covered := induction (before ++ (scan c following).lexeme)
      rw [scanAll_visible visible]
      cases splits_scan c following with
      | matched parts longest =>
          have legal : (scan c following).kind ≠ .illegal := by
            intro illegal
            have matched := longest.matched
            rw [illegal] at matched
            exact matched
          rcases opens_of_mem_pattern longest.matched with ⟨d, others, spelled, -⟩
          rw [parts]
          apply Covers.lexeme
          · rw [spelled]
            exact List.cons_ne_nil d others
          · exact fun unclosed => legal unclosed.1
          · exact covered
      | refused d parts unquoted illegal unmatched =>
          rw [illegal.2] at covered ⊢
          rw [parts, ← List.singleton_append]
          apply Covers.lexeme
          · exact List.cons_ne_nil d []
          · exact fun unclosed => unquoted (List.cons.inj unclosed.2).1
          · exact covered
      | unclosed behind parts absent illegal unmatched =>
          let quote : Token := ⟨.illegal, String.ofList ['"'], .behind before⟩
          have blank : ∀ c ∈ ([] : List Char), isBlank c = true := List.forall_mem_nil _
          have place : quote.position = .behind (before ++ []) := by rw [List.append_nil]
          have covers := Covers.unclosed blank (⟨rfl, rfl⟩ : quote.IsUnclosed) place absent
          rw [String.toList_ofList] at covers
          rw [illegal, scanAll_nil, parts]
          exact covers

/-- The tokens of a text are what the text consists of but for blanks, and each is at its place.
They can be read byte by byte, in no more rounds than the text has bytes and one, and every lexeme is
cut out where characters meet. -/
theorem tokens_cover_source_at_their_places (source : String) :
    tokenizeBytes? source = some (tokenize source) ∧
      Covers [] source.toList (tokenize source) :=
  ⟨tokenizeBytes?_eq source, covers_scanAll [] source.toList⟩

-- Columns count bytes, and a literal may end on another row than it begins.
example : tokenize "é \"a\nb\" c" =
    [⟨.illegal, "é", ⟨1, 1⟩⟩, ⟨.text, "\"a\nb\"", ⟨1, 4⟩⟩, ⟨.identifier, "c", ⟨2, 4⟩⟩] := by
  decide +kernel

theorem exists_start (before : List Char) {characters : List Char} {found later : List Token}
    {token : Token} (read : scanAll [] (.behind before) characters = found ++ token :: later) :
    ∃ skipped c following, characters = skipped ++ c :: following ∧ isBlank c = false ∧
      token = ⟨(scan c following).kind, String.ofList (scan c following).lexeme,
        .behind (before ++ skipped)⟩ ∧
      later = scanAll [] (.behind (before ++ skipped ++ (scan c following).lexeme))
        (scan c following).rest := by
  fun_induction words characters generalizing before found with
  | case1 =>
      rw [scanAll_nil] at read
      exact absurd read.symm (by simp)
  | case2 c following blank induction =>
      rw [scanAll_blank blank] at read
      rcases induction _ read with ⟨skipped, d, behind, rfl, visible, same, continued⟩
      refine ⟨c :: skipped, d, behind, rfl, visible, ?_, ?_⟩
      · simpa using same
      · simpa using continued
  | case3 c following mark induction =>
      have visible : isBlank c = false := by simpa using mark
      rw [scanAll_visible visible] at read
      cases found with
      | nil =>
          rcases List.cons.inj read with ⟨same, continued⟩
          refine ⟨[], c, following, rfl, visible, ?_, ?_⟩
          · rw [List.append_nil]
            exact same.symm
          · rw [List.append_nil]
            exact continued.symm
      | cons first found =>
          have continued := (List.cons.inj read).2
          rcases induction _ continued with ⟨skipped, d, behind, rest, visibleToo, same, onwards⟩
          have parts : c :: following = (scan c following).lexeme ++ (scan c following).rest := by
            rcases (splits_scan c following).parts with parts | nothing
            · exact parts
            · rw [nothing] at rest
              exact absurd rest.symm (by simp)
          refine ⟨(scan c following).lexeme ++ skipped, d, behind, ?_, visibleToo, ?_, ?_⟩
          · rw [parts, rest, List.append_assoc]
          · rwa [← List.append_assoc]
          · rwa [← List.append_assoc]

theorem Unmatched.not_exists {text : List Char} (unmatched : Unmatched text) :
    ¬∃ kind, ∃ candidate ∈ pattern kind, candidate <+: text := by
  intro found
  rcases found with ⟨kind, candidate, matched, begins⟩
  exact unmatched kind candidate matched begins

/-- What a token is, and where reading goes on behind it, is told by the text that begins at its
place: the longest match of the lexeme grammar, or an illegal character if nothing matches. -/
theorem token_is_longest_match_at_its_place (source : String) (found later : List Token)
    (token : Token) (read : tokenize source = found ++ token :: later) :
    ∃ front remaining, source.toList = front ++ remaining ∧
      (∀ text, text <+: source.toList → (token.position = .behind text ↔ text = front)) ∧
      (∃ c ∈ remaining.head?, isBlank c = false) ∧
      ((∃ kind, ∃ candidate ∈ pattern kind, candidate <+: remaining) →
        LongestMatch remaining token.kind token.lexeme.toList ∧
          ∃ rest, remaining = token.lexeme.toList ++ rest ∧
            later = scanAll [] (.behind (front ++ token.lexeme.toList)) rest) ∧
      ((¬∃ kind, ∃ candidate ∈ pattern kind, candidate <+: remaining) →
        token.kind = .illegal ∧ ∃ c following, remaining = c :: following ∧
          token.lexeme = String.ofList [c] ∧
          (c ≠ '"' → later = scanAll [] (.behind (front ++ [c])) following) ∧
          (c = '"' → '"' ∉ following ∧ later = [])) := by
  rcases exists_start [] read with ⟨front, c, following, parts, visible, same, continued⟩
  rw [List.nil_append] at same continued
  have place : ∀ text, text <+: source.toList →
      (token.position = .behind text ↔ text = front) := by
    intro text begins
    rw [same, Position.behind_eq_iff ⟨_, parts.symm⟩ begins, eq_comm]
  subst same continued
  refine ⟨front, c :: following, parts, place, ⟨c, rfl, visible⟩, ?_⟩
  rw [String.toList_ofList]
  cases splits_scan c following with
  | matched parts longest =>
      refine ⟨fun _ => ⟨longest, _, parts, rfl⟩, ?_⟩
      intro unmatched
      exact absurd ⟨_, _, longest.matched, longest.begins⟩ unmatched
  | refused d parts unquoted illegal unmatched =>
      rcases List.cons.inj parts with ⟨rfl, rest⟩
      refine ⟨fun found => absurd found unmatched.not_exists, ?_⟩
      intro _
      refine ⟨illegal.1, c, following, rfl, by rw [illegal.2], ?_, ?_⟩
      · intro _
        rw [illegal.2, ← rest]
      · intro quote
        exact absurd quote unquoted
  | unclosed behind parts absent illegal unmatched =>
      rcases List.cons.inj parts with ⟨rfl, rfl⟩
      refine ⟨fun found => absurd found unmatched.not_exists, ?_⟩
      intro _
      rw [illegal]
      refine ⟨rfl, '"', following, rfl, rfl, ?_, ?_⟩
      · intro unquoted
        exact absurd rfl unquoted
      · intro _
        exact ⟨absent, scanAll_nil [] _⟩

theorem token_is_longest_match_at_its_place_increment :
    let source := "a+++\"b"
    let plus : Token := ⟨.operator, "+", ⟨1, 4⟩⟩
    let quote : Token := ⟨.illegal, "\"", ⟨1, 5⟩⟩
    tokenize source =
        [⟨.identifier, "a", ⟨1, 1⟩⟩] ++ ⟨.operator, "++", ⟨1, 2⟩⟩ :: [plus, quote] ∧
      LongestMatch "+++\"b".toList .operator "++".toList := by
  intro source plus quote
  have read : tokenize source =
      [⟨.identifier, "a", ⟨1, 1⟩⟩] ++ ⟨.operator, "++", ⟨1, 2⟩⟩ :: [plus, quote] := by
    decide +kernel
  have matched : "+".toList ∈ pattern .operator := by
    change String.ofList "+".toList ∈ operators
    decide
  rcases token_is_longest_match_at_its_place source _ _ _ read with
    ⟨front, remaining, parts, place, -, longest, -⟩
  have begins : ['a'] = front := (place ['a'] (by decide)).mp rfl
  have split : source.toList = ['a'] ++ "+++\"b".toList := by decide
  subst begins
  have remains : remaining = "+++\"b".toList := List.append_cancel_left (parts.symm.trans split)
  subst remains
  exact ⟨read, (longest ⟨.operator, _, matched, by decide⟩).1⟩

end Token

end Easel
