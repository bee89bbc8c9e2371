import Easel.Proofs.Lexemes.Joining
import Easel.Proofs.Lexemes.Separation
import Mathlib.Computability.Language

/-!
The lexeme grammar. Every class of lexemes has a pattern, and of all prefixes of a text that match
some pattern the longest one is the lexeme at its head. The lexer never compares prefixes: the first
character decides which patterns come into question, because patterns of different kinds begin with
different characters, and each kind is then read by a rule of its own. Only a keyword matches two
patterns, its own and that of identifiers, and is then a keyword.
-/

namespace Easel.Token

open scoped Computability

def oneOf (test : Char → Bool) : Language Char :=
  {lexeme | ∃ c, test c = true ∧ lexeme = [c]}

def anyOf (spellings : List String) : Language Char :=
  {lexeme | String.ofList lexeme ∈ spellings}

def operators : List String :=
  ["+", "-", "*", "/", "%", "^", "==", "!=", ">=", ">", "<=", "<", "&&", "||", "!", "=", "+=", "-=",
    "*=", "/=", "%=", "^=", "++", "--", "."]

def symbols : List String :=
  ["\x7b", "\x7d", "(", ")", "[", "]", ";", ":", ","]

/-- The pattern of a class. What is illegal has none. -/
def pattern : Kind → Language Char
  | .keyword => anyOf keywords
  | .operator => anyOf operators
  | .symbol => anyOf symbols
  | .number =>
      oneOf Char.isDigit * (oneOf Char.isDigit)∗ *
        (1 + oneOf (· = '.') * (oneOf Char.isDigit)∗)
  | .text => oneOf (· = '"') * (oneOf (· ≠ '"'))∗ * oneOf (· = '"')
  | .identifier => oneOf isLetter * (oneOf isLetter)∗
  | .illegal => 0

/-- The lexeme is the longest prefix of the text that matches a pattern, and is of the class of the
pattern it matches. If there are two, the class is that of keywords. -/
structure LongestMatch (text : List Char) (kind : Kind) (lexeme : List Char) : Prop where
  begins : lexeme <+: text
  matched : lexeme ∈ pattern kind
  longest : ∀ other, ∀ candidate ∈ pattern other, candidate <+: text →
    candidate.length ≤ lexeme.length
  preferred : ∀ other, lexeme ∈ pattern other → other = kind ∨ other = .identifier ∧ kind = .keyword

def Unmatched (text : List Char) : Prop :=
  ∀ kind, ∀ candidate ∈ pattern kind, ¬candidate <+: text

/-- How a scan splits a text: into the longest match and what follows it, or, if nothing matches,
into the first character and what follows it. Behind a quote that is not closed nothing follows. -/
inductive Splits (text : List Char) (scanned : Scan) : Prop where
  | matched (parts : text = scanned.lexeme ++ scanned.rest)
      (longest : LongestMatch text scanned.kind scanned.lexeme)
  | refused (c : Char) (parts : text = c :: scanned.rest) (unquoted : c ≠ '"')
      (illegal : scanned.kind = .illegal ∧ scanned.lexeme = [c]) (unmatched : Unmatched text)
  | unclosed (following : List Char) (parts : text = '"' :: following) (absent : '"' ∉ following)
      (illegal : scanned = ⟨.illegal, ['"'], []⟩) (unmatched : Unmatched text)

section Patterns

variable {test : Char → Bool} {lexeme : List Char}

theorem mem_oneOf_mul {rest : Language Char} :
    lexeme ∈ oneOf test * rest ↔ ∃ c following, test c = true ∧ following ∈ rest ∧
      lexeme = c :: following := by
  rw [Language.mem_mul]
  constructor
  · intro parts
    rcases parts with ⟨first, ⟨c, passes, rfl⟩, following, member, rfl⟩
    exact ⟨c, following, passes, member, rfl⟩
  · intro parts
    rcases parts with ⟨c, following, passes, member, rfl⟩
    exact ⟨[c], ⟨c, passes, rfl⟩, following, member, rfl⟩

theorem mem_kstar_oneOf : lexeme ∈ (oneOf test)∗ ↔ ∀ c ∈ lexeme, test c = true := by
  rw [Language.mem_kstar]
  constructor
  · intro parts c member
    rcases parts with ⟨characters, rfl, each⟩
    rcases List.mem_flatten.mp member with ⟨character, listed, member⟩
    rcases each character listed with ⟨d, passes, rfl⟩
    rw [List.mem_singleton.mp member]
    exact passes
  · intro all
    refine ⟨lexeme.map fun c => [c], (List.flatMap_singleton' lexeme).symm, ?_⟩
    intro character member
    rcases List.mem_map.mp member with ⟨c, listed, rfl⟩
    exact ⟨c, all c listed, rfl⟩

theorem mem_run : lexeme ∈ oneOf test * (oneOf test)∗ ↔
    lexeme ≠ [] ∧ ∀ c ∈ lexeme, test c = true := by
  rw [mem_oneOf_mul]
  constructor
  · intro parts
    rcases parts with ⟨c, following, passes, member, rfl⟩
    exact ⟨List.cons_ne_nil c following,
      List.forall_mem_cons.mpr ⟨passes, mem_kstar_oneOf.mp member⟩⟩
  · intro run
    rcases List.exists_cons_of_ne_nil run.1 with ⟨c, following, rfl⟩
    have each := List.forall_mem_cons.mp run.2
    exact ⟨c, following, each.1, mem_kstar_oneOf.mpr each.2, rfl⟩

theorem mem_pattern_number : lexeme ∈ pattern .number ↔ IsNumeral lexeme := by
  rw [pattern, Language.mem_mul]
  constructor
  · intro parts
    rcases parts with ⟨digits, run, fraction, member, rfl⟩
    rcases mem_run.mp run with ⟨some, all⟩
    rcases (Language.mem_add _ _ _).mp member with none | member
    · rw [Language.mem_one] at none
      rw [none, List.append_nil]
      exact .whole some all
    · rcases mem_oneOf_mul.mp member with ⟨point, places, same, run, rfl⟩
      rw [of_decide_eq_true same]
      exact .fraction some all (mem_kstar_oneOf.mp run)
  · intro numeral
    cases numeral with
    | whole some all =>
        exact ⟨_, mem_run.mpr ⟨some, all⟩, [], .inl rfl, List.append_nil _⟩
    | @fraction digits places some all allPlaces =>
        have point : '.' :: places ∈ oneOf (· = '.') * (oneOf Char.isDigit)∗ :=
          mem_oneOf_mul.mpr ⟨'.', places, rfl, mem_kstar_oneOf.mpr allPlaces, rfl⟩
        exact ⟨digits, mem_run.mpr ⟨some, all⟩, '.' :: places, .inr point, rfl⟩

theorem mem_pattern_text :
    lexeme ∈ pattern .text ↔ ∃ content, '"' ∉ content ∧ lexeme = '"' :: content ++ ['"'] := by
  have plain : ∀ {content : List Char},
      (∀ c ∈ content, decide (c ≠ '"') = true) ↔ '"' ∉ content := by
    intro content
    simp only [decide_eq_true_eq]
    exact ⟨fun all member => all '"' member rfl, fun none c member same => none (same ▸ member)⟩
  rw [pattern, Language.mem_mul]
  constructor
  · intro parts
    rcases parts with ⟨front, member, back, ⟨closing, same, rfl⟩, rfl⟩
    rcases mem_oneOf_mul.mp member with ⟨opening, content, sameToo, inside, rfl⟩
    rw [of_decide_eq_true same, of_decide_eq_true sameToo]
    exact ⟨content, plain.mp (mem_kstar_oneOf.mp inside), rfl⟩
  · intro parts
    rcases parts with ⟨content, unquoted, rfl⟩
    have inside := mem_kstar_oneOf.mpr (plain.mpr unquoted)
    exact ⟨'"' :: content, mem_oneOf_mul.mpr ⟨'"', content, rfl, inside, rfl⟩, ['"'],
      ⟨'"', rfl, rfl⟩, rfl⟩

theorem mem_pattern_operator : lexeme ∈ pattern .operator ↔
    (∃ c, isSingleOperator c = true ∧ lexeme = [c]) ∨
      ∃ c second, operatorPairs.contains (c, second) = true ∧ lexeme = [c, second] := by
  constructor
  · intro member
    have spelled : ∀ spelling ∈ operators,
        spelling.toList ∈
            ['+', '-', '*', '/', '%', '^', '=', '<', '>', '!', '.'].map (fun c => [c]) ∨
          spelling.toList ∈ operatorPairs.map fun pair => [pair.1, pair.2] := by decide
    have found := spelled _ member
    rw [String.toList_ofList, List.mem_map, List.mem_map] at found
    rcases found with ⟨c, single, rfl⟩ | ⟨pair, listed, rfl⟩
    · exact .inl ⟨c, List.contains_iff_mem.mpr single, rfl⟩
    · exact .inr ⟨pair.1, pair.2, List.contains_iff_mem.mpr listed, rfl⟩
  · intro spelled
    have singles : (['+', '-', '*', '/', '%', '^', '=', '<', '>', '!', '.'].all fun c =>
        operators.contains (String.ofList [c])) = true := rfl
    have pairs : ∀ pair ∈ operatorPairs, String.ofList [pair.1, pair.2] ∈ operators := by decide
    rcases spelled with ⟨c, single, rfl⟩ | ⟨c, second, pair, rfl⟩
    · have listed := List.all_eq_true.mp singles c (List.contains_iff_mem.mp single)
      exact List.contains_iff_mem.mp listed
    · exact pairs (c, second) (List.contains_iff_mem.mp pair)

theorem mem_pattern_symbol :
    lexeme ∈ pattern .symbol ↔ ∃ c, isSymbolCharacter c = true ∧ lexeme = [c] := by
  constructor
  · intro member
    have spelled : ∀ spelling ∈ symbols, spelling.toList ∈
        ['{', '}', '(', ')', '[', ']', ';', ':', ','].map (fun c => [c]) := by decide
    have found := spelled _ member
    rw [String.toList_ofList, List.mem_map] at found
    rcases found with ⟨c, symbol, rfl⟩
    exact ⟨c, List.contains_iff_mem.mpr symbol, rfl⟩
  · intro spelled
    have all : (['{', '}', '(', ')', '[', ']', ';', ':', ','].all fun c =>
        symbols.contains (String.ofList [c])) = true := rfl
    rcases spelled with ⟨c, symbol, rfl⟩
    have listed := List.all_eq_true.mp all c (List.contains_iff_mem.mp symbol)
    exact List.contains_iff_mem.mp listed

theorem mem_pattern_keyword_letters (member : lexeme ∈ pattern .keyword) :
    lexeme ≠ [] ∧ ∀ c ∈ lexeme, isLetter c = true := by
  have spelled : ∀ spelling ∈ keywords,
      spelling.toList ≠ [] ∧ spelling.toList.all isLetter = true := by decide
  have found := spelled _ member
  rw [String.toList_ofList] at found
  exact ⟨found.1, List.all_eq_true.mp found.2⟩

end Patterns

section Opening

variable {kind other : Kind} {c : Char} {following lexeme : List Char}

/-- The characters that a lexeme of a class may begin with. -/
def Opens : Kind → Char → Prop
  | .keyword, c | .identifier, c => isLetter c = true
  | .operator, c | .symbol, c => IsMark c
  | .number, c => c.isDigit = true
  | .text, c => c = '"'
  | .illegal, _ => False

theorem opens_of_mem_pattern (matched : lexeme ∈ pattern kind) :
    ∃ c following, lexeme = c :: following ∧ Opens kind c := by
  have run : ∀ {test : Char → Bool}, (lexeme ≠ [] ∧ ∀ c ∈ lexeme, test c = true) →
      ∃ c following, lexeme = c :: following ∧ test c = true := by
    intro test run
    rcases List.exists_cons_of_ne_nil run.1 with ⟨c, following, rfl⟩
    exact ⟨c, following, rfl, run.2 c List.mem_cons_self⟩
  cases kind with
  | keyword => exact run (mem_pattern_keyword_letters matched)
  | identifier => exact run (mem_run.mp matched)
  | number => exact (mem_pattern_number.mp matched).begins
  | text =>
      rcases mem_pattern_text.mp matched with ⟨content, -, rfl⟩
      exact ⟨'"', content ++ ['"'], rfl, rfl⟩
  | operator =>
      rcases mem_pattern_operator.mp matched with ⟨c, single, rfl⟩ | ⟨c, second, pair, rfl⟩
      · exact ⟨c, [], rfl, isMark_of_isSingleOperator single⟩
      · exact ⟨c, [second], rfl, isMark_of_pair pair⟩
  | symbol =>
      rcases mem_pattern_symbol.mp matched with ⟨c, symbol, rfl⟩
      exact ⟨c, [], rfl, isMark_of_isSymbolCharacter symbol⟩
  | illegal => exact matched.elim

theorem opens_of_begins (matched : lexeme ∈ pattern kind) (begins : lexeme <+: c :: following) :
    Opens kind c := by
  rcases opens_of_mem_pattern matched with ⟨d, rest, rfl, opens⟩
  rw [← (List.cons_prefix_cons.mp begins).1]
  exact opens

theorem Opens.quote (opens : Opens kind '"') : kind = .text := by
  cases kind with
  | text => rfl
  | operator | symbol => exact absurd rfl opens.2.1
  | _ => cases opens

theorem Opens.letter (opens : Opens kind c) (letter : isLetter c = true) :
    kind = .keyword ∨ kind = .identifier := by
  cases kind with
  | keyword => exact .inl rfl
  | identifier => exact .inr rfl
  | operator | symbol => exact absurd letter (by rw [opens.2.2.1]; decide)
  | number => exact absurd letter (by rw [isLetter_eq_false_of_isDigit opens]; decide)
  | text =>
      rw [show c = '"' from opens] at letter
      cases letter
  | illegal => exact opens.elim

theorem Opens.digit (opens : Opens kind c) (digit : c.isDigit = true) : kind = .number := by
  have unlettered := isLetter_eq_false_of_isDigit digit
  cases kind with
  | number => rfl
  | keyword | identifier => exact absurd opens (by rw [Opens, unlettered]; decide)
  | operator | symbol => exact absurd digit (by rw [opens.2.2.2]; decide)
  | text =>
      rw [show c = '"' from opens] at digit
      cases digit
  | illegal => exact opens.elim

theorem Opens.mark (opens : Opens kind c) (unquoted : c ≠ '"') (unlettered : isLetter c = false)
    (undigited : c.isDigit = false) : kind = .operator ∨ kind = .symbol := by
  cases kind with
  | operator => exact .inl rfl
  | symbol => exact .inr rfl
  | keyword | identifier => exact absurd opens (by rw [Opens, unlettered]; decide)
  | number => exact absurd opens (by rw [Opens, undigited]; decide)
  | text => exact absurd opens unquoted
  | illegal => exact opens.elim

theorem not_mem_pattern_symbol_of_operator (matched : lexeme ∈ pattern .operator) :
    lexeme ∉ pattern .symbol := by
  have apart : ∀ spelling ∈ operators, spelling ∉ symbols := by decide
  exact apart _ matched

end Opening

section Branches

variable {c : Char} {following candidate : List Char}

theorem length_le_takeWhile {test : Char → Bool} {text : List Char}
    (all : ∀ c ∈ candidate, test c = true) (begins : candidate <+: text) :
    candidate.length ≤ (text.takeWhile test).length := by
  rcases begins with ⟨rest, rfl⟩
  rw [List.takeWhile_append_of_pos all, List.length_append]
  exact Nat.le_add_right _ _

theorem scanText_of_matched (matched : candidate ∈ pattern .text)
    (begins : candidate <+: '"' :: following) :
    ∃ rest, following = candidate.tail ++ rest ∧ scanText following = ⟨.text, candidate, rest⟩ := by
  rcases mem_pattern_text.mp matched with ⟨content, unquoted, rfl⟩
  rcases begins with ⟨rest, parts⟩
  have closed : following = content ++ '"' :: rest := by
    simpa using (List.cons.inj parts).2.symm
  refine ⟨rest, ?_, ?_⟩
  · rw [closed]
    simp
  · rw [closed, scanText_closed unquoted]

theorem splits_text (following : List Char) : Splits ('"' :: following) (scanText following) := by
  by_cases found : ∃ candidate ∈ pattern .text, candidate <+: '"' :: following
  · rcases found with ⟨lexeme, matched, begins⟩
    rcases scanText_of_matched matched begins with ⟨rest, parts, scanned⟩
    rcases opens_of_mem_pattern matched with ⟨quote, inside, rfl, opens⟩
    rw [scanned]
    refine .matched ?_ ⟨begins, matched, ?_, ?_⟩
    · rw [parts, show quote = '"' from opens]
      rfl
    · intro other candidate matchedToo beginsToo
      obtain rfl := (opens_of_begins matchedToo beginsToo).quote
      rcases scanText_of_matched matchedToo beginsToo with ⟨restToo, -, scannedToo⟩
      rw [scanned] at scannedToo
      rw [(Scan.mk.inj scannedToo).2.1]
    · intro other matchedToo
      exact .inl (opens_of_begins matchedToo begins).quote
  · have unmatched : Unmatched ('"' :: following) := by
      intro kind candidate matched begins
      obtain rfl := (opens_of_begins matched begins).quote
      exact found ⟨candidate, matched, begins⟩
    have unquoted : '"' ∉ following := by
      intro quoted
      rcases List.eq_append_cons_of_mem quoted with ⟨content, rest, rfl, unquoted⟩
      have matched := mem_pattern_text.mpr ⟨content, unquoted, rfl⟩
      refine found ⟨'"' :: content ++ ['"'], matched, rest, ?_⟩
      simp
    exact .unclosed following rfl unquoted (scanText_unclosed unquoted) unmatched

theorem splits_word (following : List Char) (letter : isLetter c = true) :
    Splits (c :: following) (scanWord (c :: following)) := by
  have parts : c :: following = (c :: following).takeWhile isLetter ++
      (c :: following).dropWhile isLetter := List.takeWhile_append_dropWhile.symm
  have letters : (c :: following).takeWhile isLetter ∈ pattern .identifier := by
    refine mem_run.mpr ⟨?_, fun _ member => mem_takeWhile_true member⟩
    rw [List.takeWhile_cons, if_pos letter]
    exact List.cons_ne_nil _ _
  have begins : (c :: following).takeWhile isLetter <+: c :: following := List.takeWhile_prefix _
  have longest : ∀ other, ∀ candidate ∈ pattern other, candidate <+: c :: following →
      candidate.length ≤ ((c :: following).takeWhile isLetter).length := by
    intro other candidate matched begins
    rcases (opens_of_begins matched begins).letter letter with rfl | rfl
    · exact length_le_takeWhile (mem_pattern_keyword_letters matched).2 begins
    · exact length_le_takeWhile (mem_run.mp matched).2 begins
  unfold scanWord
  dsimp only
  split
  · next reserved =>
      have keyword := List.contains_iff_mem.mp reserved
      refine .matched parts ⟨begins, keyword, longest, ?_⟩
      intro other matched
      rcases (opens_of_begins matched begins).letter letter with rfl | rfl
      · exact .inl rfl
      · exact .inr ⟨rfl, rfl⟩
  · next unreserved =>
      refine .matched parts ⟨begins, letters, longest, ?_⟩
      intro other matched
      rcases (opens_of_begins matched begins).letter letter with rfl | rfl
      · exact absurd (List.contains_iff_mem.mpr matched) unreserved
      · exact .inl rfl

theorem length_le_scanNumber {text : List Char} (numeral : IsNumeral candidate)
    (begins : candidate <+: text) : candidate.length ≤ (scanNumber text).lexeme.length := by
  unfold scanNumber
  cases numeral with
  | whole some all =>
      have within := length_le_takeWhile all begins
      split
      · rw [List.length_append]
        exact Nat.le_add_right_of_le within
      · exact within
  | @fraction digits places some all allPlaces =>
      rcases begins with ⟨rest, rfl⟩
      have point : ∀ c ∈ ('.' :: (places ++ rest)).head?, c.isDigit = false := by simp
      have taken := takeWhile_append_of_stop all point
      have dropped := dropWhile_append_of_stop all point
      have within := length_le_takeWhile allPlaces (List.prefix_append places rest)
      rw [List.append_assoc, List.cons_append, taken, dropped]
      simp only [List.length_append, List.length_cons]
      omega

theorem splits_number (following : List Char) (digit : c.isDigit = true) :
    Splits (c :: following) (scanNumber (c :: following)) := by
  have numeral : IsNumeral (scanNumber (c :: following)).lexeme ∧
      (scanNumber (c :: following)).kind = .number := by
    have shape := hasShape_scanNumber following digit
    have kind : (scanNumber (c :: following)).kind = .number := by
      unfold scanNumber
      split <;> rfl
    rw [kind] at shape
    exact ⟨shape, kind⟩
  have parts : c :: following =
      (scanNumber (c :: following)).lexeme ++ (scanNumber (c :: following)).rest := by
    have whole : (c :: following).takeWhile Char.isDigit ++
        (c :: following).dropWhile Char.isDigit = c :: following :=
      List.takeWhile_append_dropWhile
    unfold scanNumber
    split
    · next rest found =>
        rw [found] at whole
        dsimp only
        rw [List.append_assoc, List.cons_append, List.takeWhile_append_dropWhile, whole]
    · exact whole.symm
  have begins : (scanNumber (c :: following)).lexeme <+: c :: following := ⟨_, parts.symm⟩
  refine .matched parts ⟨begins, ?_, ?_, ?_⟩
  · rw [numeral.2]
    exact mem_pattern_number.mpr numeral.1
  · intro other candidate matched begins
    obtain rfl := (opens_of_begins matched begins).digit digit
    exact length_le_scanNumber (mem_pattern_number.mp matched) begins
  · intro other matched
    rw [numeral.2]
    exact .inl ((opens_of_begins matched begins).digit digit)

section Marks

variable (unquoted : c ≠ '"') (unlettered : isLetter c = false) (undigited : c.isDigit = false)
include unquoted unlettered undigited

/-- What can match at the head of a text that begins with a mark. -/
theorem mark_candidates {kind : Kind} (matched : candidate ∈ pattern kind)
    (begins : candidate <+: c :: following) :
    candidate = [c] ∧ (isSingleOperator c = true ∨ isSymbolCharacter c = true) ∨
      ∃ second ∈ following.head?, operatorPairs.contains (c, second) = true ∧
        candidate = [c, second] := by
  rcases (opens_of_begins matched begins).mark unquoted unlettered undigited with rfl | rfl
  · rcases mem_pattern_operator.mp matched with ⟨d, single, rfl⟩ | ⟨d, second, pair, rfl⟩
    · rcases List.cons_prefix_cons.mp begins with ⟨rfl, -⟩
      exact .inl ⟨rfl, .inl single⟩
    · rcases List.cons_prefix_cons.mp begins with ⟨rfl, next⟩
      exact .inr ⟨second, List.singleton_prefix_iff_head?_eq_some.mp next, pair, rfl⟩
  · rcases mem_pattern_symbol.mp matched with ⟨d, symbol, rfl⟩
    rcases List.cons_prefix_cons.mp begins with ⟨rfl, -⟩
    exact .inl ⟨rfl, .inr symbol⟩

theorem splits_pair {second : Char} {rest : List Char}
    (pair : operatorPairs.contains (c, second) = true) :
    Splits (c :: second :: rest) ⟨.operator, [c, second], rest⟩ := by
  have matched : [c, second] ∈ pattern .operator :=
    mem_pattern_operator.mpr (.inr ⟨c, second, pair, rfl⟩)
  have begins : [c, second] <+: c :: second :: rest := ⟨rest, rfl⟩
  refine .matched rfl ⟨begins, matched, ?_, ?_⟩
  · intro other candidate matchedToo beginsToo
    rcases mark_candidates unquoted unlettered undigited matchedToo beginsToo with
      ⟨rfl, -⟩ | ⟨_, -, -, rfl⟩
    · exact Nat.le_succ _
    · exact Nat.le_refl _
  · intro other matchedToo
    rcases (opens_of_begins matchedToo begins).mark unquoted unlettered undigited with rfl | rfl
    · exact .inl rfl
    · exact absurd matchedToo (not_mem_pattern_symbol_of_operator matched)

theorem splits_single
    (alone : ∀ second ∈ following.head?, operatorPairs.contains (c, second) = false) :
    Splits (c :: following) (scanMark.single c following) := by
  have begins : [c] <+: c :: following := ⟨following, rfl⟩
  have only : ∀ {kind : Kind} {candidate : List Char}, candidate ∈ pattern kind →
      candidate <+: c :: following →
        candidate = [c] ∧ (isSingleOperator c = true ∨ isSymbolCharacter c = true) := by
    intro kind candidate matched begins
    rcases mark_candidates unquoted unlettered undigited matched begins with
      single | ⟨second, next, pair, -⟩
    · exact single
    · rw [alone second next] at pair
      cases pair
  have longest : ∀ other, ∀ candidate ∈ pattern other, candidate <+: c :: following →
      candidate.length ≤ [c].length := by
    intro other candidate matched begins
    rw [(only matched begins).1]
  have marked : ∀ {other : Kind}, [c] ∈ pattern other → other = .operator ∨ other = .symbol :=
    fun matched => (opens_of_begins matched begins).mark unquoted unlettered undigited
  unfold scanMark.single
  split
  · next single =>
      have matched : [c] ∈ pattern .operator := mem_pattern_operator.mpr (.inl ⟨c, single, rfl⟩)
      refine .matched rfl ⟨begins, matched, longest, ?_⟩
      intro other matchedToo
      rcases marked matchedToo with rfl | rfl
      · exact .inl rfl
      · exact absurd matchedToo (not_mem_pattern_symbol_of_operator matched)
  · next multiple =>
      split
      · next symbol =>
          have matched : [c] ∈ pattern .symbol := mem_pattern_symbol.mpr ⟨c, symbol, rfl⟩
          refine .matched rfl ⟨begins, matched, longest, ?_⟩
          intro other matchedToo
          rcases marked matchedToo with rfl | rfl
          · exact absurd matched (not_mem_pattern_symbol_of_operator matchedToo)
          · exact .inl rfl
      · next unmarked =>
          refine .refused c rfl unquoted ⟨rfl, rfl⟩ ?_
          intro kind candidate matched begins
          rcases (only matched begins).2 with single | symbol
          · exact multiple single
          · exact unmarked symbol

theorem splits_mark (following : List Char) : Splits (c :: following) (scanMark c following) := by
  by_cases alone : ∀ second ∈ following.head?, operatorPairs.contains (c, second) = false
  · rw [scanMark_alone alone]
    exact splits_single unquoted unlettered undigited alone
  · cases following with
    | nil => exact absurd nofun alone
    | cons second rest =>
        have pair : operatorPairs.contains (c, second) = true := by
          simpa using alone
        rw [scanMark, if_pos pair]
        exact splits_pair unquoted unlettered undigited pair

end Marks

end Branches

theorem splits_scan (c : Char) (following : List Char) :
    Splits (c :: following) (scan c following) := by
  unfold scan
  split
  · next quote =>
      rw [quote]
      exact splits_text following
  · next unquoted =>
      split
      · next letter => exact splits_word following letter
      · next unlettered =>
          rw [Bool.not_eq_true] at unlettered
          split
          · next digit => exact splits_number following digit
          · next undigited =>
              rw [Bool.not_eq_true] at undigited
              exact splits_mark unquoted unlettered undigited following

theorem Splits.parts {text : List Char} {scanned : Scan} (split : Splits text scanned) :
    text = scanned.lexeme ++ scanned.rest ∨ scanned.rest = [] := by
  cases split with
  | matched parts longest => exact .inl parts
  | refused c parts unquoted illegal unmatched =>
      left
      rw [illegal.2]
      exact parts
  | unclosed following parts absent illegal unmatched =>
      right
      rw [illegal]

end Easel.Token
