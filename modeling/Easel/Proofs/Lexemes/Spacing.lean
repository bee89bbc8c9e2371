import Easel.Proofs.Lexemes.Patterns

/-!
Lexemes with blanks between them. A blank matches no pattern but that of texts, and a text does not
go on behind its closing quote. So a lexeme with a blank or nothing behind it is still the longest
match, whatever stood behind it before, and the lexemes of a text can be laid out anew.
-/

namespace Easel.Token

variable {text lexeme rest : List Char} {kind : Kind} {c : Char}

def IsApart (rest : List Char) : Prop :=
  ∀ c ∈ rest.head?, isBlank c = true

theorem IsApart.of_begins {more : List Char} (apart : IsApart rest) (begins : more <+: rest) :
    IsApart more := by
  rcases begins with ⟨behind, rfl⟩
  cases more with
  | nil => exact nofun
  | cons c more => exact apart

theorem eq_text_of_isBlank (matched : lexeme ∈ pattern kind) (member : c ∈ lexeme)
    (blank : isBlank c = true) : kind = .text := by
  have unlettered : isLetter c ≠ true := by
    intro letter
    rw [isBlank_eq_false_of_isLetter letter] at blank
    cases blank
  have undigited : c.isDigit ≠ true := by
    intro digit
    rw [isBlank_eq_false_of_isDigit digit] at blank
    cases blank
  have listed : ∀ spelling ∈ operators ++ symbols,
      (spelling.toList.all fun d => !isBlank d) = true := by decide
  have unlisted : String.ofList lexeme ∉ operators ++ symbols := by
    intro spelled
    have visible := listed _ spelled
    rw [String.toList_ofList] at visible
    have found := List.all_eq_true.mp visible c member
    rw [blank] at found
    cases found
  cases kind with
  | text => rfl
  | keyword => exact absurd ((mem_pattern_keyword_letters matched).2 c member) unlettered
  | identifier => exact absurd ((mem_run.mp matched).2 c member) unlettered
  | operator => exact absurd (List.mem_append_left symbols matched) unlisted
  | symbol => exact absurd (List.mem_append_right operators matched) unlisted
  | number =>
      cases mem_pattern_number.mp matched with
      | whole some all => exact absurd (all c member) undigited
      | fraction some all allPlaces =>
          rcases List.mem_append.mp member with inFront | behind
          · exact absurd (all c inFront) undigited
          · rcases List.mem_cons.mp behind with point | behind
            · rw [point] at blank
              cases blank
            · exact absurd (allPlaces c behind) undigited
  | illegal => exact matched.elim

theorem eq_nil_of_isApart (matched : lexeme ∈ pattern kind) {other : Kind} {more : List Char}
    (apart : IsApart more) (matchedToo : lexeme ++ more ∈ pattern other) : more = [] := by
  cases more with
  | nil => rfl
  | cons c more =>
      obtain rfl := eq_text_of_isBlank matchedToo (by simp) (apart c rfl)
      rcases opens_of_mem_pattern matched with ⟨quote, inside, rfl, opens⟩
      obtain rfl : quote = '"' := opens_of_begins matchedToo List.prefix_rfl
      obtain rfl := opens.quote
      have begins := List.prefix_append ('"' :: inside) (c :: more)
      rcases scanText_of_matched matched begins with ⟨behind, -, scanned⟩
      rcases scanText_of_matched matchedToo List.prefix_rfl with ⟨behindToo, -, scannedToo⟩
      have same := (Scan.mk.inj (scanned.symm.trans scannedToo)).2.1
      exact List.append_right_eq_self.mp same.symm

theorem LongestMatch.unique {other : Kind} {candidate : List Char}
    (longest : LongestMatch text kind lexeme) (longestToo : LongestMatch text other candidate) :
    other = kind ∧ candidate = lexeme := by
  have atMost := longest.longest other candidate longestToo.matched longestToo.begins
  have atLeast := longestToo.longest kind lexeme longest.matched longest.begins
  have same : candidate = lexeme :=
    (List.prefix_of_prefix_length_le longestToo.begins longest.begins atMost).eq_of_length_le
      atLeast
  subst same
  refine ⟨?_, rfl⟩
  rcases longest.preferred other longestToo.matched with same | ⟨identifier, -⟩
  · exact same
  · rcases longestToo.preferred kind longest.matched with same | ⟨-, keyword⟩
    · exact same.symm
    · rw [identifier] at keyword
      cases keyword

theorem LongestMatch.apart (longest : LongestMatch text kind lexeme) (apart : IsApart rest) :
    LongestMatch (lexeme ++ rest) kind lexeme := by
  refine ⟨List.prefix_append lexeme rest, longest.matched, ?_, longest.preferred⟩
  intro other candidate matched begins
  rcases List.prefix_or_prefix_of_prefix begins (List.prefix_append lexeme rest) with
    within | ⟨more, rfl⟩
  · exact within.length_le
  · have continued := (List.prefix_append_right_inj lexeme).mp begins
    rw [eq_nil_of_isApart longest.matched (apart.of_begins continued) matched, List.append_nil]

theorem Unmatched.apart {following : List Char} (unmatched : Unmatched (c :: following))
    (unquoted : c ≠ '"') (apart : IsApart rest) : Unmatched (c :: rest) := by
  intro kind candidate matched begins
  rcases opens_of_mem_pattern matched with ⟨d, others, rfl, opens⟩
  rcases List.cons_prefix_cons.mp begins with ⟨rfl, continued⟩
  cases others with
  | nil => exact unmatched kind [d] matched ⟨following, rfl⟩
  | cons second others =>
      have blank := apart.of_begins continued second rfl
      obtain rfl := eq_text_of_isBlank matched (by simp) blank
      exact unquoted opens

theorem words_of_longestMatch (visible : isBlank c = false)
    (longest : LongestMatch (c :: text) kind lexeme) (parts : c :: text = lexeme ++ rest) :
    words (c :: text) = ⟨kind, String.ofList lexeme⟩ :: words rest := by
  rw [words_scan visible]
  cases splits_scan c text with
  | matched partsToo longestToo =>
      rcases longest.unique longestToo with ⟨kinds, lexemes⟩
      rw [lexemes] at partsToo
      have rests := List.append_cancel_left (partsToo.symm.trans parts)
      rw [kinds, lexemes, rests]
  | refused d partsToo unquoted illegal unmatched =>
      exact absurd longest.begins (unmatched kind lexeme longest.matched)
  | unclosed behind partsToo absent illegal unmatched =>
      exact absurd longest.begins (unmatched kind lexeme longest.matched)

theorem words_of_unmatched (visible : isBlank c = false) (unquoted : c ≠ '"')
    (unmatched : Unmatched (c :: rest)) :
    words (c :: rest) = ⟨.illegal, String.ofList [c]⟩ :: words rest := by
  rw [words_scan visible]
  cases splits_scan c rest with
  | matched parts longest =>
      exact absurd longest.begins (unmatched _ _ longest.matched)
  | refused d parts unquotedToo illegal unmatchedToo =>
      rcases List.cons.inj parts with ⟨rfl, same⟩
      rw [illegal.1, illegal.2, ← same]
  | unclosed behind parts absent illegal unmatchedToo =>
      exact absurd (List.cons.inj parts).1 unquoted

/-- A lexeme is read again if a blank or nothing follows it. A quote that is not closed is the last
lexeme of its text, and nothing may follow it. -/
theorem words_apart {following : List Char} (visible : isBlank c = false) (apart : IsApart rest)
    (last : (scan c following).rest = [] → rest = []) :
    words ((scan c following).lexeme ++ rest) =
      ⟨(scan c following).kind, String.ofList (scan c following).lexeme⟩ :: words rest := by
  cases splits_scan c following with
  | matched parts longest =>
      have again := longest.apart apart
      rcases opens_of_mem_pattern longest.matched with ⟨d, others, spelled, -⟩
      rw [spelled, List.cons_append] at parts
      obtain rfl := (List.cons.inj parts).1
      rw [spelled, List.cons_append] at again ⊢
      exact words_of_longestMatch visible again rfl
  | refused d parts unquoted illegal unmatched =>
      obtain rfl := (List.cons.inj parts).1
      rw [illegal.1, illegal.2]
      exact words_of_unmatched visible unquoted (unmatched.apart unquoted apart)
  | unclosed behind parts absent illegal unmatched =>
      rw [illegal] at last ⊢
      rw [last rfl, List.append_nil]
      exact words_scan rfl

theorem exists_intercalate_cons (lexeme : List Char) (others : List (List Char)) :
    ∃ rest, [' '].intercalate (lexeme :: others) = lexeme ++ rest ∧ IsApart rest ∧
      words rest = words ([' '].intercalate others) ∧ (others = [] → rest = []) := by
  cases others with
  | nil =>
      refine ⟨[], ?_, nofun, rfl, fun _ => rfl⟩
      rw [List.intercalate_singleton, List.append_nil]
  | cons next others =>
      refine ⟨' ' :: [' '].intercalate (next :: others), ?_, ?_, words_blank rfl, nofun⟩
      · rw [List.intercalate_cons_cons, List.append_assoc, List.singleton_append]
      · intro c first
        rw [← Option.some.inj first]
        rfl

/-- The words of a text, laid out with single spaces between them, are its words again. -/
theorem words_intercalate (characters : List Char) :
    words ([' '].intercalate ((words characters).map fun word => word.lexeme.toList)) =
      words characters := by
  fun_induction words characters with
  | case1 => exact words_nil
  | case2 c following blank induction => exact induction
  | case3 c following mark induction =>
      have visible : isBlank c = false := by simpa using mark
      rcases exists_intercalate_cons (scan c following).lexeme
        ((words (scan c following).rest).map fun word => word.lexeme.toList) with
        ⟨rest, laidOut, apart, same, last⟩
      have nothing : (scan c following).rest = [] → rest = [] := by
        intro ended
        apply last
        rw [ended, words_nil, List.map_nil]
      rw [List.map_cons, String.toList_ofList, laidOut, words_apart visible apart nothing, same,
        induction]

/-- The text of the lexemes of a source text, with single spaces between them. -/
def spaced (source : String) : String :=
  " ".intercalate ((tokenize source).map Token.lexeme)

theorem map_word_tokenize_spaced (source : String) :
    (tokenize (spaced source)).map word = (tokenize source).map word := by
  have lexemes : (spaced source).toList =
      [' '].intercalate (((tokenize source).map word).map fun word => word.lexeme.toList) := by
    rw [spaced, String.toList_intercalate, List.map_map, List.map_map]
    rfl
  rw [map_word_tokenize, lexemes, map_word_tokenize, words_intercalate]

example : spaced "x+=1.;\n&\"a b" = "x += 1. ; & \"" := by decide +kernel

end Easel.Token
