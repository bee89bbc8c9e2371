import Easel.Proofs.Evaluation.Runs
import Mathlib.Data.List.Infix

/-!
What formatted output prints. Texts without a hole in them can be written into a template so that
they stand for themselves: escaping makes no holes, the template comes apart at the holes between
the texts and nowhere else, and what was escaped is decoded to what it was. The values go into the
holes as they are printed, and nothing in them is taken for a hole or an escape.
-/

namespace Easel

namespace Text.Template

def hole : List Char := ['%', 's']

def escapeCharacter (c : Char) : List Char :=
  if c = '\\' then ['\\', '\\'] else if c = '\n' then ['\\', 'n'] else [c]

def escape (text : List Char) : List Char :=
  text.flatMap escapeCharacter

/-- The template with the texts around its holes. -/
def around (texts : List String) : String :=
  "%s".intercalate (texts.map fun text => String.ofList (escape text.toList))

/-- The first text, and each other one behind its filling. -/
def filled (first : String) (others fillings : List String) : String :=
  first ++ String.join (List.zipWith (· ++ ·) fillings others)

theorem escape_cons (c : Char) (rest : List Char) :
    escape (c :: rest) = escapeCharacter c ++ escape rest :=
  List.flatMap_cons

theorem escapeCharacter_cases (c : Char) :
    (∃ named, escapeCharacter c = ['\\', named] ∧ named ≠ '%' ∧
      ∀ rest, decode ('\\' :: named :: rest) = c :: decode rest) ∨
      escapeCharacter c = [c] ∧ c ≠ '\\' := by
  unfold escapeCharacter
  split
  · next backslash =>
      left
      exact ⟨'\\', rfl, by decide, fun rest => by rw [decode, backslash]⟩
  · next other =>
      split
      · next newline =>
          left
          exact ⟨'n', rfl, by decide, fun rest => by rw [decode, newline]⟩
      · exact .inr ⟨rfl, other⟩

theorem decode_cons_of_ne {c : Char} (plain : c ≠ '\\') (rest : List Char) :
    decode (c :: rest) = c :: decode rest := by
  apply decode.eq_4 <;> simp [plain]

theorem decode_escape (text : List Char) : decode (escape text) = text := by
  induction text with
  | nil => rfl
  | cons c rest induction =>
      rw [escape_cons]
      rcases escapeCharacter_cases c with ⟨named, escaped, _, decoded⟩ | ⟨kept, plain⟩
      · rw [escaped, List.cons_append, List.singleton_append, decoded, induction]
      · rw [kept, List.singleton_append, decode_cons_of_ne plain, induction]

theorem hole_prefix_cons_iff {c : Char} {rest : List Char} :
    hole <+: c :: rest ↔ c = '%' ∧ ['s'] <+: rest := by
  rw [hole, List.cons_prefix_cons, eq_comm]

theorem prefix_of_prefix_escape {text : List Char} (begins : ['s'] <+: escape text) :
    ['s'] <+: text := by
  cases text with
  | nil => exact begins
  | cons c rest =>
      rw [escape_cons] at begins
      rcases escapeCharacter_cases c with ⟨named, escaped, _⟩ | ⟨kept, _⟩
      · rw [escaped, List.cons_append, List.cons_prefix_cons] at begins
        exact absurd begins.1 (by decide)
      · rw [kept, List.singleton_append, List.cons_prefix_cons] at begins
        exact List.cons_prefix_cons.mpr ⟨begins.1, List.nil_prefix⟩

theorem hole_infix_of_escape {text : List Char} (holed : hole <:+: escape text) :
    hole <:+: text := by
  induction text with
  | nil => exact holed
  | cons c rest induction =>
      rw [escape_cons] at holed
      rw [List.infix_cons_iff]
      rcases escapeCharacter_cases c with ⟨named, escaped, unmarked, _⟩ | ⟨kept, _⟩
      · rw [escaped, List.cons_append, List.singleton_append, List.infix_cons_iff,
          List.infix_cons_iff, hole_prefix_cons_iff, hole_prefix_cons_iff] at holed
        rcases holed with ⟨backslash, _⟩ | ⟨mark, _⟩ | inside
        · exact absurd backslash (by decide)
        · exact absurd mark unmarked
        · exact .inr (induction inside)
      · rw [kept, List.singleton_append, List.infix_cons_iff] at holed
        rcases holed with begins | inside
        · rw [hole_prefix_cons_iff] at begins ⊢
          exact .inl ⟨begins.1, prefix_of_prefix_escape begins.2⟩
        · exact .inr (induction inside)

section Segments

variable {text : List Char}

theorem segmentsFrom_cons {c : Char} (other : ¬hole <+: c :: text) (front : List Char) :
    segmentsFrom front (c :: text) = segmentsFrom (c :: front) text := by
  apply segmentsFrom.eq_3
  intro rest mark letter
  apply other
  rw [mark, letter]
  exact List.prefix_append hole rest

theorem segmentsFrom_of_unmarked (unmarked : ¬hole <:+: text) (front : List Char) :
    segmentsFrom front text = [front.reverse ++ text] := by
  induction text generalizing front with
  | nil => rw [segmentsFrom, List.append_nil]
  | cons c rest induction =>
      rw [List.infix_cons_iff, not_or] at unmarked
      rw [segmentsFrom_cons unmarked.1, induction unmarked.2]
      simp

/-- A text without a hole ends at the hole behind it, also if it ends with half of one. -/
theorem segmentsFrom_append_hole (unmarked : ¬hole <:+: text) (front rest : List Char) :
    segmentsFrom front (text ++ hole ++ rest) = (front.reverse ++ text) :: segmentsFrom [] rest := by
  induction text generalizing front with
  | nil =>
      rw [List.append_nil]
      rfl
  | cons c more induction =>
      rw [List.infix_cons_iff, not_or] at unmarked
      have other : ¬hole <+: c :: (more ++ hole ++ rest) := by
        rw [hole_prefix_cons_iff] at unmarked ⊢
        intro begins
        apply unmarked.1
        refine ⟨begins.1, ?_⟩
        cases more with
        | nil => exact absurd (List.cons_prefix_cons.mp begins.2).1 (by decide)
        | cons second others =>
            have letter := (List.cons_prefix_cons.mp begins.2).1
            exact List.cons_prefix_cons.mpr ⟨letter, List.nil_prefix⟩
      rw [List.cons_append, List.cons_append, segmentsFrom_cons other, induction unmarked.2]
      simp

theorem segmentsFrom_intercalate (first : List Char) (others : List (List Char))
    (unmarked : ∀ text ∈ first :: others, ¬hole <:+: text) :
    segmentsFrom [] (hole.intercalate (first :: others)) = first :: others := by
  induction others generalizing first with
  | nil =>
      rw [List.intercalate_singleton, segmentsFrom_of_unmarked (unmarked first (by simp))]
      rfl
  | cons second others induction =>
      rw [List.forall_mem_cons] at unmarked
      rw [List.intercalate_cons_cons, segmentsFrom_append_hole unmarked.1,
        induction second unmarked.2]
      rfl

end Segments

theorem segments_around (first : String) (others : List String)
    (unmarked : ∀ text ∈ first :: others, ¬hole <:+: text.toList) :
    segments (around (first :: others)) =
      (first :: others).map fun text => escape text.toList := by
  have spelled : (around (first :: others)).toList =
      hole.intercalate ((first :: others).map fun text => escape text.toList) := by
    simp [around, hole, Function.comp_def]
  have unescaped : ∀ segment ∈ (first :: others).map fun text => escape text.toList,
      ¬hole <:+: segment := by
    rw [List.forall_mem_map]
    intro text member holed
    exact unmarked text member (hole_infix_of_escape holed)
  rw [segments, spelled]
  exact segmentsFrom_intercalate _ _ unescaped

theorem fill_escaped (first : String) (others fillings : List String)
    (enough : fillings.length = others.length) :
    fill ((first :: others).map fun text => escape text.toList) fillings =
      filled first others fillings := by
  induction others generalizing first fillings with
  | nil =>
      rw [List.length_eq_zero_iff.mp enough]
      simp [fill, filled, decode_escape]
  | cons second others induction =>
      cases fillings with
      | nil => cases enough
      | cons filling fillings =>
          have further := induction second fillings (Nat.succ.inj enough)
          rw [List.map_cons, fill, further, decode_escape, String.ofList_toList]
          simp [filled, String.append_assoc]

end Text.Template

namespace Evaluation

open EvalM

theorem writeText_run (text : String) (context : Context) (machine : Machine) :
    writeText text context machine =
      match machine.output.write text with
      | (output, none) => .ok () { machine with output := output }
      | (output, some fault) =>
          .error (.failure (.runtime (.channel fault))) { machine with output := output } := by
  rw [writeText, get_bind_run]
  rcases machine.output.write text with ⟨output, _ | fault⟩ <;> rfl

theorem printFormatted_run {format : Value} {template : String}
    (given : format.content? = some template) (values : List Value) (context : Context)
    (machine : Machine) :
    let segments := Text.Template.segments template
    printFormatted (format :: values) context machine =
      if values.length + 1 = segments.length then
        (do writeText (Text.Template.fill segments (values.map Value.render)); return Value.none)
          context machine
      else
        .error (.failure (.runtime (.incorrectArity "printf" (values.length + 1) segments.length)))
          machine := by
  intro segments
  rw [printFormatted, bind_run, textArgument, given]
  change (if values.length + 1 = segments.length then _ else _ : EvalM Value) context machine = _
  split <;> rfl

/-- Values are printed between the texts of a template as they are, in one write that also decides
how the call ends. With another number of values than holes nothing is written. -/
theorem printf_inserts_values_verbatim (deeper : Deeper) {context : Context}
    (unwatched : context.watch = none) (machine : Machine) (first : String) (others : List String)
    (unmarked : ∀ text ∈ first :: others, ¬"%s".toList <:+: text.toList) {format : Value}
    (given : format.content? = some (Text.Template.around (first :: others)))
    (values : List Value) :
    let printed := applyBuiltin deeper .printf (format :: values) context machine
    (values.length = others.length →
      printed =
        match machine.output.write
            (Text.Template.filled first others (values.map Value.render)) with
        | (output, none) => .ok .none { machine with output := output }
        | (output, some fault) =>
            .error (.failure (.runtime (.channel fault))) { machine with output := output }) ∧
      (values.length ≠ others.length →
        printed = .error (.failure (.runtime
          (.incorrectArity "printf" (values.length + 1) (others.length + 1)))) machine) := by
  intro printed
  have parts := Text.Template.segments_around first others unmarked
  have ran : printed = printFormatted (format :: values) context machine := by
    change applyBuiltin deeper .printf (format :: values) context machine = _
    rw [applyBuiltin, bind_run, observe_of_unwatched unwatched]
  rw [printFormatted_run given, parts, List.length_map, List.length_cons] at ran
  constructor
  · intro enough
    have fillings : (values.map Value.render).length = others.length := by
      rw [List.length_map, enough]
    rw [ran, if_pos (congrArg Nat.succ enough), Text.Template.fill_escaped first others _ fillings,
      bind_run, writeText_run]
    rcases machine.output.write _ with ⟨output, _ | fault⟩ <;> rfl
  · intro different
    rw [ran, if_neg fun same => different (Nat.succ.inj same)]

/-- A text that ends with half a mark, one that begins with the other half and has a backslash in
front of a letter, and a value that looks like a hole and an escape. -/
theorem printf_inserts_values_verbatim_marks :
    let context : Context := { limits := {}, loader := .ofUnits [], patience := 0 }
    let machine : Machine := {}
    let others := ["s\\n\n"]
    let format : Value := .text "\"100%%ss\\\\n\\n\""
    let values : List Value := [.text "\"%s\\n\""]
    (context.watch = none ∧ (∀ text ∈ "100%" :: others, ¬"%s".toList <:+: text.toList) ∧
      format.content? = some (Text.Template.around ("100%" :: others)) ∧
      values.length = others.length) ∧
      applyBuiltin (within 0) .printf (format :: values) context machine =
        .ok .none { machine with output := (machine.output.write "100%%s\\ns\\n\n").1 } := by
  intro context machine others format values
  have unmarked : ∀ text ∈ "100%" :: others, ¬"%s".toList <:+: text.toList := by decide +kernel
  have given : format.content? = some (Text.Template.around ("100%" :: others)) := by
    decide +kernel
  have text : Text.Template.filled "100%" others (values.map Value.render) =
      "100%%s\\ns\\n\n" := by
    decide +kernel
  have unwatched : context.watch = none := rfl
  have printed := (printf_inserts_values_verbatim (within 0) unwatched machine "100%" others unmarked
    given values).1 rfl
  rw [text, Sink.write_of_unlimited machine.output _ rfl] at printed
  rw [Sink.write_of_unlimited machine.output _ rfl]
  exact ⟨⟨unwatched, unmarked, given, rfl⟩, printed⟩

end Evaluation

end Easel
