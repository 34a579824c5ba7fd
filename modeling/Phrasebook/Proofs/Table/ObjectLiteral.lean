import Phrasebook.Proofs.Lexeme.Layout
import Phrasebook.Proofs.Lexeme.Placed
import Phrasebook.Table.Plain

/-!
# Tables that are object literals

A table is written as a call whose argument is an object literal, nested to any depth. Every entry with
a literal for its value is one phrase, in the order of the source: layout, nesting, trailing commas and
equal keys change nothing.
-/

namespace Phrasebook

def Phrase.withoutHint (phrase : Phrase) : Phrase := { phrase with hint := none }

namespace Table

open Lexeme Text

/-! ## Object literals -/

/-- A literal in double quotes. -/
structure Literal where
  body : Text
  legal : QuotableBody body

/-- What stands between the braces of an object literal. -/
inductive Fields where
  /-- No more entries; whether a comma follows the last one. -/
  | nil (comma : Bool)
  | leaf (key value : Literal) (later : Fields)
  | object (key : Literal) (inner later : Fields)

/-- The name of the function that a table is passed to. -/
structure Callee where
  first : Char
  rest : Text
  starts : isNameStart first = true
  parts : ∀ c ∈ rest, isNamePart c = true

def Literal.word (literal : Literal) : Word :=
  ⟨.quoted .double, '"' :: (literal.body ++ ['"'])⟩

def Callee.word (callee : Callee) : Word := ⟨.identifier, callee.first :: callee.rest⟩

def openWord (bracket : Bracket) : Word := ⟨.opening bracket, [bracket.opener]⟩

def closeWord (bracket : Bracket) : Word := ⟨.closing bracket, [bracket.closer]⟩

def colonWord : Word := ⟨.colon, [':']⟩

def commaWord : Word := ⟨.comma, [',']⟩

namespace Fields

/-- What stands between an entry and those that follow it. -/
def separator : Fields → List Word
  | nil false => []
  | nil true | leaf _ _ _ | object _ _ _ => [commaWord]

def words : Fields → List Word
  | nil _ => []
  | leaf key value later =>
    [key.word, colonWord, value.word] ++ (later.separator ++ later.words)
  | object key inner later =>
    [key.word, colonWord, openWord .brace] ++
      (inner.words ++ ([closeWord .brace] ++ (later.separator ++ later.words)))

end Fields

/-- An entry whose value is a literal, and the words before its key. -/
structure Leaf where
  before : List Word
  key : Literal
  value : Literal

/-- The leaves of entries that follow the words of `before`. -/
def Fields.leaves (before : List Word) : Fields → List Leaf
  | nil _ => []
  | leaf key value later =>
    ⟨before, key, value⟩ ::
      later.leaves (before ++ [key.word, colonWord, value.word] ++ later.separator)
  | object key inner later =>
    let opened := before ++ [key.word, colonWord, openWord .brace]
    inner.leaves opened ++
      later.leaves (opened ++ inner.words ++ [closeWord .brace] ++ later.separator)

/-- The words of a call before the entries of its argument. -/
def callHead (callee : Callee) : List Word := [callee.word, openWord .round, openWord .brace]

/-- The words of a call with an object literal as its argument. -/
def callWords (callee : Callee) (fields : Fields) : List Word :=
  callHead callee ++ (fields.words ++ [closeWord .brace, closeWord .round])

/-- The phrase of a leaf, without a hint; its line is that of the quote before its key. -/
def Leaf.phrase (gaps : Nat → Layout) (leaf : Leaf) : Phrase :=
  .keyed leaf.key.body (Escape.decode .cFamily leaf.value.body) none
    (1 + newlines (writeWords gaps leaf.before))

/-! ## Reading the words -/

theorem endsBefore_literal (literal : Literal) (behind : Text) :
    literal.word.EndsBefore behind :=
  endsBefore_quoted literal.legal behind

theorem endsBefore_openWord (bracket : Bracket) (behind : Text) :
    (openWord bracket).EndsBefore behind := by
  cases bracket <;> exact endsBefore_char (by decide) (fun _ => rfl) behind

theorem endsBefore_closeWord (bracket : Bracket) (behind : Text) :
    (closeWord bracket).EndsBefore behind := by
  cases bracket <;> exact endsBefore_char (by decide) (fun _ => rfl) behind

theorem endsBefore_colonWord (behind : Text) : colonWord.EndsBefore behind :=
  endsBefore_char (by decide) (fun _ => rfl) behind

theorem endsBefore_commaWord (behind : Text) : commaWord.EndsBefore behind :=
  endsBefore_char (by decide) (fun _ => rfl) behind

/-- A word that ends by itself may stand before any words. -/
theorem separate_cons {word : Word} {later : List Word} (h : ∀ behind, word.EndsBefore behind)
    (hcode : word.kind.isComment = false) (hl : Separate later) : Separate (word :: later) :=
  ⟨fun _ _ => h _, hcode, hl⟩

theorem Fields.separator_cases (fields : Fields) :
    fields = nil false ∨ fields.separator = [commaWord] := by
  cases fields with
  | nil comma => cases comma <;> simp [separator]
  | leaf key value later => exact Or.inr rfl
  | object key inner later => exact Or.inr rfl

theorem separate_separator (fields : Fields) {later : List Word} (h : Separate later) :
    Separate (fields.separator ++ later) := by
  rcases fields.separator_cases with rfl | hcomma
  · exact h
  · rw [hcomma]
    exact separate_cons endsBefore_commaWord rfl h

theorem separate_words (fields : Fields) {later : List Word} (h : Separate later) :
    Separate (fields.words ++ later) := by
  induction fields generalizing later with
  | nil comma => exact h
  | leaf key value others ih =>
    simp only [Fields.words, List.append_assoc, List.cons_append, List.nil_append]
    exact separate_cons (endsBefore_literal key) rfl <| separate_cons endsBefore_colonWord rfl <|
      separate_cons (endsBefore_literal value) rfl <| separate_separator others (ih h)
  | object key inner others ihi iho =>
    simp only [Fields.words, List.append_assoc, List.cons_append, List.nil_append]
    refine separate_cons (endsBefore_literal key) rfl <| separate_cons endsBefore_colonWord rfl <|
      separate_cons (endsBefore_openWord .brace) rfl <| ihi ?_
    exact separate_cons (endsBefore_closeWord .brace) rfl <| separate_separator others (iho h)

theorem separate_callWords (callee : Callee) (fields : Fields) :
    Separate (callWords callee fields) := by
  have hclose : Separate [closeWord .brace, closeWord .round] :=
    separate_cons (endsBefore_closeWord .brace) rfl <|
      separate_cons (endsBefore_closeWord .round) rfl trivial
  refine ⟨fun gaps n => ?_, rfl, ?_⟩
  · -- The name ends at the layout behind it, or else at the bracket.
    exact endsBefore_name callee.starts callee.parts (takeWhile_layout _ rfl)
  · exact separate_cons (endsBefore_openWord .round) rfl <|
      separate_cons (endsBefore_openWord .brace) rfl <| separate_words fields hclose

/-! ## The lexemes of an object literal -/

/-- The lexemes from behind an entry on, where `rest` ends the object around it. -/
def behindEntry (gaps : Nat → Layout) (before : List Word) (later : Fields) (rest : List Lexeme) :
    List Lexeme :=
  placeWords gaps before later.separator ++
    (placeWords gaps (before ++ later.separator) later.words ++ rest)

theorem placeWords_leaf (gaps : Nat → Layout) (before : List Word) (key value : Literal)
    (later : Fields) (rest : List Lexeme) :
    placeWords gaps before (Fields.leaf key value later).words ++ rest =
      key.word.at (placeBehind gaps before) ::
        colonWord.at (placeBehind gaps (before ++ [key.word])) ::
        value.word.at (placeBehind gaps (before ++ [key.word, colonWord])) ::
        behindEntry gaps (before ++ [key.word, colonWord, value.word]) later rest := by
  simp [Fields.words, placeWords_append, placeWords, behindEntry]

theorem placeWords_object (gaps : Nat → Layout) (before : List Word) (key : Literal)
    (inner later : Fields) (rest : List Lexeme) :
    placeWords gaps before (Fields.object key inner later).words ++ rest =
      key.word.at (placeBehind gaps before) ::
        colonWord.at (placeBehind gaps (before ++ [key.word])) ::
        (openWord .brace).at (placeBehind gaps (before ++ [key.word, colonWord])) ::
        (placeWords gaps (before ++ [key.word, colonWord, openWord .brace]) inner.words ++
          (closeWord .brace).at
            (placeBehind gaps (before ++ [key.word, colonWord, openWord .brace] ++ inner.words)) ::
          behindEntry gaps
            (before ++ [key.word, colonWord, openWord .brace] ++ inner.words ++ [closeWord .brace])
            later rest) := by
  simp [Fields.words, placeWords_append, placeWords, behindEntry]

theorem behindEntry_of_comma {later : Fields} (h : later.separator = [commaWord])
    (gaps : Nat → Layout) (before : List Word) (rest : List Lexeme) :
    behindEntry gaps before later rest =
      commaWord.at (placeBehind gaps before) ::
        (placeWords gaps (before ++ later.separator) later.words ++ rest) := by
  rw [behindEntry, h]
  rfl

/-! ## Balance -/

theorem checkFrom_withoutComments (opened : List OpenBracket) (lexemes : List Lexeme) :
    checkFrom opened (withoutComments lexemes) = checkFrom opened lexemes := by
  induction lexemes generalizing opened with
  | nil => rfl
  | cons lexeme rest ih =>
    obtain ⟨kind, text, position⟩ := lexeme
    cases kind with
    | lineComment => exact ih opened
    | blockComment => exact ih opened
    | opening bracket => exact ih _
    | closing bracket =>
      cases opened with
      | nil => rfl
      | cons innermost outer =>
        change checkFrom _ (_ :: withoutComments rest) = _
        simp only [checkFrom, ih]
    | quoted quote => exact ih opened
    | colon => exact ih opened
    | comma => exact ih opened
    | identifier => exact ih opened
    | number => exact ih opened
    | punctuation => exact ih opened

theorem checkFrom_behindEntry {gaps : Nat → Layout} {before : List Word} {later : Fields}
    {opened : List OpenBracket} {rest : List Lexeme}
    (h : checkFrom opened (placeWords gaps (before ++ later.separator) later.words ++ rest) =
      checkFrom opened rest) :
    checkFrom opened (behindEntry gaps before later rest) = checkFrom opened rest := by
  rcases later.separator_cases with rfl | hcomma
  · rfl
  · rw [behindEntry_of_comma hcomma, ← h]
    rfl

/-- The brackets of an object literal are closed within it. -/
theorem checkFrom_words (gaps : Nat → Layout) (before : List Word) (fields : Fields)
    (opened : List OpenBracket) (rest : List Lexeme) :
    checkFrom opened (placeWords gaps before fields.words ++ rest) = checkFrom opened rest := by
  induction fields generalizing before opened rest with
  | nil comma => rfl
  | leaf key value later ih =>
    rw [placeWords_leaf]
    exact checkFrom_behindEntry (ih _ opened rest)
  | object key inner later ihi ihl =>
    rw [placeWords_object]
    refine (ihi _ (⟨.brace, _⟩ :: opened) _).trans ?_
    exact checkFrom_behindEntry (ihl _ opened rest)

theorem checkBalance_callWords (gaps : Nat → Layout) (callee : Callee) (fields : Fields) :
    checkBalance (placeWords gaps [] (callWords callee fields)) = .ok () := by
  rw [callWords, placeWords_append, placeWords_append]
  change checkFrom [⟨.brace, _⟩, ⟨.round, _⟩] (placeWords gaps _ fields.words ++ _) = _
  rw [checkFrom_words]
  rfl

/-! ## Phrases -/

/-- A lexeme without what stands around it. -/
def bare (lexeme : Lexeme) : Placed := ⟨lexeme, [], []⟩

def Entry.bare (entry : Entry) : Entry := ⟨Table.bare entry.key.lexeme, Table.bare entry.value.lexeme⟩

/-- The phrases, without hints, of lexemes among which there is no comment. -/
def phrasesOf (lexemes : List Lexeme) : List Phrase :=
  (entriesOfCode (lexemes.map bare)).filterMap Plain.phrase?

theorem atFront?_bare (code : List Placed) :
    Entry.atFront? ((code.map (·.lexeme)).map bare) = (Entry.atFront? code).map Entry.bare := by
  match code with
  | before :: key :: colon :: value :: behind :: rest =>
    simp only [List.map_cons, Entry.atFront?, bare]
    split <;> rfl
  | [] | [_] | [_, _] | [_, _, _] | [_, _, _, _] => rfl

theorem entriesOfCode_bare (code : List Placed) :
    entriesOfCode ((code.map (·.lexeme)).map bare) = (entriesOfCode code).map Entry.bare := by
  induction code with
  | nil => rfl
  | cons placed rest ih =>
    have hfront := atFront?_bare (placed :: rest)
    rw [List.map_cons, List.map_cons] at hfront ⊢
    rw [entriesOfCode, entriesOfCode, List.map_append, ih, hfront]
    cases Entry.atFront? (placed :: rest) <;> rfl

/-- What stands around an entry counts for its hint alone. -/
theorem phrase?_bare (entry : Entry) :
    Plain.phrase? entry.bare = (Plain.phrase? entry).map Phrase.withoutHint := by
  by_cases h : entry.key.lexeme.kind = .quoted .double ∧ entry.value.lexeme.kind = .quoted .double
  · have hbare : entry.bare.key.lexeme.kind = .quoted .double ∧
        entry.bare.value.lexeme.kind = .quoted .double := h
    rw [Plain.phrase?, Plain.phrase?, if_pos h, if_pos hbare]
    rfl
  · have hbare : ¬ (entry.bare.key.lexeme.kind = .quoted .double ∧
        entry.bare.value.lexeme.kind = .quoted .double) := h
    rw [Plain.phrase?, Plain.phrase?, if_neg h, if_neg hbare]
    rfl

theorem lexemes_code (lexemes : List Lexeme) :
    (code lexemes).map (·.lexeme) = withoutComments lexemes := by
  calc (code lexemes).map (·.lexeme)
      = withoutComments ((placed lexemes).map (·.lexeme)) := by
        rw [withoutComments, List.filter_map]
        rfl
    _ = withoutComments lexemes := by rw [placed, lexemes_placedAfter]

/-- Where what stands around an entry counts for its hint alone, comments count for hints alone. -/
theorem withoutHint_entries {phrase? : Entry → Option Phrase}
    (hbare : ∀ entry, phrase? entry.bare = (phrase? entry).map Phrase.withoutHint)
    (lexemes : List Lexeme) :
    ((entries lexemes).filterMap phrase?).map Phrase.withoutHint =
      (entriesOfCode ((withoutComments lexemes).map bare)).filterMap phrase? := by
  rw [← lexemes_code, entriesOfCode_bare, List.filterMap_map, List.map_filterMap]
  exact congrArg (fun f => (entries lexemes).filterMap f) (funext fun e => (hbare e).symm)

theorem withoutHint_phrases (lexemes : List Lexeme) :
    ((entries lexemes).filterMap Plain.phrase?).map Phrase.withoutHint =
      phrasesOf (withoutComments lexemes) :=
  withoutHint_entries phrase?_bare lexemes

/-! ## One lexeme after the other -/

/-- The phrase of the entry that the first lexeme opens. -/
def phraseAtFront? (lexemes : List Lexeme) : Option Phrase :=
  (Entry.atFront? (lexemes.map bare)).bind Plain.phrase?

theorem phrasesOf_cons (lexeme : Lexeme) (rest : List Lexeme) :
    phrasesOf (lexeme :: rest) = (phraseAtFront? (lexeme :: rest)).toList ++ phrasesOf rest := by
  rw [phrasesOf, phraseAtFront?, List.map_cons, entriesOfCode, List.filterMap_append]
  cases Entry.atFront? (bare lexeme :: rest.map bare) with
  | none => rfl
  | some entry =>
    rw [Option.toList_some, Option.bind_some, List.filterMap_cons]
    cases Plain.phrase? entry <;> rfl

theorem atFront?_map_bare (before key colon value behind : Lexeme) (rest : List Lexeme) :
    Entry.atFront? ((before :: key :: colon :: value :: behind :: rest).map bare) =
      if opensEntry before.kind ∧ isKey key.kind ∧ colon.kind = .colon ∧ closesEntry behind.kind then
        some ⟨bare key, bare value⟩
      else none := rfl

theorem phrase?_map_bare (key value : Lexeme) :
    Plain.phrase? ⟨bare key, bare value⟩ =
      if key.kind = .quoted .double ∧ value.kind = .quoted .double then
        some (.keyed key.body (Escape.decode .cFamily value.body) none key.line)
      else none := rfl

theorem phraseAtFront?_eq_some {lexemes : List Lexeme} {phrase : Phrase}
    (h : phraseAtFront? lexemes = some phrase) :
    ∃ before key colon value behind rest,
      lexemes = before :: key :: colon :: value :: behind :: rest ∧
        opensEntry before.kind = true ∧ isKey key.kind = true ∧ value.kind = .quoted .double := by
  match lexemes with
  | before :: key :: colon :: value :: behind :: rest =>
    refine ⟨before, key, colon, value, behind, rest, rfl, ?_⟩
    obtain ⟨entry, hentry, hphrase⟩ := Option.bind_eq_some_iff.mp h
    rw [atFront?_map_bare, Option.ite_none_right_eq_some] at hentry
    obtain ⟨⟨hopens, hkey, -⟩, hentry⟩ := hentry
    cases hentry
    rw [phrase?_map_bare, Option.ite_none_right_eq_some] at hphrase
    exact ⟨hopens, hkey, hphrase.1.2⟩
  | [] | [_] | [_, _] | [_, _, _] | [_, _, _, _] => cases h

theorem phrasesOf_of_not_front {lexeme : Lexeme} {rest : List Lexeme}
    (h : ∀ phrase, phraseAtFront? (lexeme :: rest) ≠ some phrase) :
    phrasesOf (lexeme :: rest) = phrasesOf rest := by
  rw [phrasesOf_cons, Option.eq_none_iff_forall_ne_some.mpr h]
  rfl

theorem phrasesOf_of_not_opens {lexeme : Lexeme} (h : opensEntry lexeme.kind = false)
    (rest : List Lexeme) : phrasesOf (lexeme :: rest) = phrasesOf rest := by
  apply phrasesOf_of_not_front
  intro phrase hphrase
  obtain ⟨before, key, colon, value, behind, others, heq, hopens, -⟩ := phraseAtFront?_eq_some hphrase
  rw [List.cons.injEq] at heq
  rw [← heq.1, h] at hopens
  cases hopens

/-- An entry does not begin where no key follows. -/
theorem phrasesOf_of_not_key {lexeme : Lexeme} (h : isKey lexeme.kind = false) (before : Lexeme)
    (rest : List Lexeme) : phrasesOf (before :: lexeme :: rest) = phrasesOf (lexeme :: rest) := by
  apply phrasesOf_of_not_front
  intro phrase hphrase
  obtain ⟨_, key, colon, value, behind, others, heq, -, hkey, -⟩ := phraseAtFront?_eq_some hphrase
  rw [List.cons.injEq, List.cons.injEq] at heq
  rw [← heq.2.1, h] at hkey
  cases hkey

/-! ## Entries of object literals -/

/-- An entry with a literal is a phrase. -/
theorem phrasesOf_leaf (key value : Literal) {before behind : Lexeme}
    (hopens : opensEntry before.kind = true) (hcloses : closesEntry behind.kind = true)
    (p q r : Position) (rest : List Lexeme) :
    phrasesOf (before :: key.word.at p :: colonWord.at q :: value.word.at r :: behind :: rest) =
      .keyed key.body (Escape.decode .cFamily value.body) none p.line ::
        phrasesOf (behind :: rest) := by
  have hfront : phraseAtFront?
      (before :: key.word.at p :: colonWord.at q :: value.word.at r :: behind :: rest) =
        some (.keyed key.body (Escape.decode .cFamily value.body) none p.line) := by
    have hbody : ∀ (literal : Literal) (position : Position),
        (literal.word.at position).body = literal.body := by
      intro literal position
      change (literal.body ++ ['"']).dropLast = literal.body
      exact List.dropLast_concat
    rw [phraseAtFront?, atFront?_map_bare, if_pos ⟨hopens, rfl, rfl, hcloses⟩, Option.bind_some,
      phrase?_map_bare, if_pos ⟨rfl, rfl⟩, hbody, hbody]
    rfl
  rw [phrasesOf_cons, hfront, phrasesOf_of_not_opens rfl, phrasesOf_of_not_opens rfl,
    phrasesOf_of_not_opens rfl]
  rfl

/-- An entry with an object is none itself, whether the object is empty or not. -/
theorem phrasesOf_object (key : Literal) (before : Lexeme) (p q r : Position)
    (rest : List Lexeme) :
    phrasesOf
        (before :: key.word.at p :: colonWord.at q :: (openWord .brace).at r :: rest) =
      phrasesOf ((openWord .brace).at r :: rest) := by
  have hnone : ∀ phrase, phraseAtFront?
      (before :: key.word.at p :: colonWord.at q :: (openWord .brace).at r :: rest) ≠
        some phrase := by
    intro phrase hphrase
    obtain ⟨_, _, _, value, _, _, heq, -, -, hvalue⟩ := phraseAtFront?_eq_some hphrase
    simp only [List.cons.injEq] at heq
    rw [← heq.2.2.2.1] at hvalue
    cases hvalue
  rw [phrasesOf_of_not_front hnone, phrasesOf_of_not_opens rfl, phrasesOf_of_not_opens rfl]

theorem exists_closesEntry (gaps : Nat → Layout) (before : List Word) (later : Fields)
    {closing : Lexeme} (hc : closing.kind = .closing .brace) (rest : List Lexeme) :
    ∃ first others, behindEntry gaps before later (closing :: rest) = first :: others ∧
      closesEntry first.kind = true := by
  rcases later.separator_cases with rfl | hcomma
  · exact ⟨closing, rest, rfl, by rw [hc]; rfl⟩
  · exact ⟨_, _, behindEntry_of_comma hcomma gaps before _, rfl⟩

/-- The lexemes between the braces of an object, together with those around them, give the phrases of
the leaves. -/
def Phrased (gaps : Nat → Layout) (before : List Word) (fields : Fields) : Prop :=
  ∀ {opening closing : Lexeme} (rest : List Lexeme),
    opensEntry opening.kind = true → closing.kind = .closing .brace →
      phrasesOf (opening :: (placeWords gaps before fields.words ++ closing :: rest)) =
        (fields.leaves before).map (Leaf.phrase gaps) ++ phrasesOf (closing :: rest)

/-- What follows an entry begins with the comma that opens the next one, or there is no next one. -/
theorem phrasesOf_behindEntry {gaps : Nat → Layout} {before : List Word} {later : Fields}
    (h : Phrased gaps (before ++ later.separator) later) {closing : Lexeme}
    (hc : closing.kind = .closing .brace) (rest : List Lexeme) :
    phrasesOf (behindEntry gaps before later (closing :: rest)) =
      (later.leaves (before ++ later.separator)).map (Leaf.phrase gaps) ++
        phrasesOf (closing :: rest) := by
  rcases later.separator_cases with rfl | hcomma
  · rfl
  · rw [behindEntry_of_comma hcomma]
    exact h rest rfl hc

theorem phrased (gaps : Nat → Layout) (before : List Word) (fields : Fields) :
    Phrased gaps before fields := by
  induction fields generalizing before with
  | nil comma =>
    intro opening closing rest _ hc
    exact phrasesOf_of_not_key (by rw [hc]; rfl) _ _
  | leaf key value later ih =>
    intro opening closing rest hopens hc
    have hlater := phrasesOf_behindEntry
      (ih (before ++ [key.word, colonWord, value.word] ++ later.separator)) hc rest
    obtain ⟨first, others, hfirst, hcloses⟩ :=
      exists_closesEntry gaps (before ++ [key.word, colonWord, value.word]) later hc rest
    rw [placeWords_leaf, hfirst, phrasesOf_leaf key value hopens hcloses, ← hfirst, hlater]
    rfl
  | object key inner later ihi ihl =>
    intro opening closing rest _ hc
    rw [placeWords_object, phrasesOf_object, ihi _ _ rfl rfl, phrasesOf_of_not_opens rfl,
      phrasesOf_behindEntry (ihl _) hc, Fields.leaves, List.map_append]
    exact (List.append_assoc _ _ _).symm

/-- A call with an object literal is a table, and its phrases are its leaves, whatever the layout is. -/
theorem phrases_of_call (callee : Callee) (fields : Fields) (gaps : Nat → Layout) :
    ∃ phrases, Plain.phrases (writeWords gaps (callWords callee fields)) = .ok phrases ∧
      phrases.map Phrase.withoutHint =
        (fields.leaves (callHead callee)).map (Leaf.phrase gaps) := by
  obtain ⟨lexemes, hread, hcode⟩ := readsAs_writeWords (separate_callWords callee fields) gaps
  have hbalance : checkBalance lexemes = .ok () := by
    rw [checkBalance, ← checkFrom_withoutComments, hcode]
    exact checkBalance_callWords gaps callee fields
  refine ⟨(entries lexemes).filterMap Plain.phrase?, ?_, ?_⟩
  · rw [Plain.phrases, read, readAll, hread]
    change (do checkBalance lexemes; pure lexemes : Except Fault (List Lexeme)) >>= _ = _
    rw [hbalance]
    rfl
  · rw [withoutHint_phrases, hcode, callWords, placeWords_append, placeWords_append]
    change phrasesOf (callee.word.at _ :: (openWord .round).at _ :: (openWord .brace).at _ ::
      (placeWords gaps (callHead callee) fields.words ++ (closeWord .brace).at _ ::
        [(closeWord .round).at _])) = _
    rw [phrasesOf_of_not_opens rfl, phrasesOf_of_not_opens rfl, phrased gaps _ fields _ rfl rfl]
    exact List.append_nil _

end Table

end Phrasebook
