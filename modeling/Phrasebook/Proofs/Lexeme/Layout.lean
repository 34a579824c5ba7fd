import Phrasebook.Lexeme.Reader
import Phrasebook.Proofs.Text.Search

/-!
# Lexemes with layout between them

Between two lexemes there may be any amount of spacing and of comments. Words that are written with
such layout are read as these words, each in its place, with comments between them.
-/

namespace Phrasebook.Lexeme

open Text

/-! ## Words -/

/-- A lexeme without its place. -/
structure Word where
  kind : Kind
  text : Text
  deriving DecidableEq, Repr

def Word.at (word : Word) (position : Position) : Lexeme := ⟨word.kind, word.text, position⟩

/-- Where `behind` follows the word, the word is the first lexeme, and it ends where it should. -/
def Word.EndsBefore (word : Word) (behind : Text) : Prop :=
  ∃ c rest, word.text = c :: rest ∧ isSpacing c = false ∧
    first? c (rest ++ behind) = some (word.kind, rest.length)

theorem readFrom_nil (position : Position) : readFrom position [] = .ok [] := by
  rw [readFrom]

theorem readFrom_spacing {c : Char} (h : isSpacing c = true) (position : Position) (behind : Text) :
    readFrom position (c :: behind) = readFrom (position.advance [c]) behind := by
  rw [readFrom, if_pos h]

theorem readFrom_word {word : Word} {behind : Text} (h : word.EndsBefore behind)
    (position : Position) :
    readFrom position (word.text ++ behind) =
      (readFrom (position.advance word.text) behind).map (word.at position :: ·) := by
  obtain ⟨c, rest, htext, hc, hfirst⟩ := h
  rw [htext, List.cons_append, readFrom, if_neg (by simp [hc]), hfirst]
  simp only [List.take_left, List.drop_left]
  cases readFrom (position.advance (c :: rest)) behind with
  | error fault => rfl
  | ok others => rw [Word.at, htext]; rfl

/-! ## Where words end -/

theorem endsBefore_char {c : Char} {kind : Kind} (hc : isSpacing c = false)
    (h : ∀ rest, first? c rest = some (kind, 0)) (behind : Text) :
    Word.EndsBefore ⟨kind, [c]⟩ behind :=
  ⟨c, [], rfl, hc, h behind⟩

/-- What may stand between two marks. -/
inductive LiteralBody (mark : Char) : Text → Prop where
  | nil : LiteralBody mark []
  | plain {c : Char} {rest : Text} (inside : c ≠ mark) (backslash : c ≠ '\\') (newline : c ≠ '\n')
    (later : LiteralBody mark rest) : LiteralBody mark (c :: rest)
  | escaped (c : Char) {rest : Text} (later : LiteralBody mark rest) :
    LiteralBody mark ('\\' :: c :: rest)

theorem escapedWidth?_of_body {mark : Char} {body : Text} (hmark : mark ≠ '\\')
    (h : LiteralBody mark body) (behind : Text) :
    escapedWidth? mark (body ++ mark :: behind) = some (body.length + 1) := by
  induction h with
  | nil =>
    rw [List.nil_append, escapedWidth?.eq_def]
    simp
  | plain inside backslash newline _ ih =>
    rw [List.cons_append, escapedWidth?.eq_def]
    simp [inside, backslash, newline, ih]
  | escaped c _ ih =>
    rw [List.cons_append, List.cons_append, escapedWidth?.eq_def]
    simp [hmark.symm, ih]

/-- What may stand between two double quotes. -/
inductive QuotableBody : Text → Prop where
  | nil : QuotableBody []
  | plain {c : Char} {rest : Text} (quote : c ≠ '"') (backslash : c ≠ '\\') (newline : c ≠ '\n')
    (later : QuotableBody rest) : QuotableBody (c :: rest)
  | escaped (c : Char) {rest : Text} (later : QuotableBody rest) : QuotableBody ('\\' :: c :: rest)

theorem literalBody_of_quotable {body : Text} (h : QuotableBody body) : LiteralBody '"' body := by
  induction h with
  | nil => exact .nil
  | plain quote backslash newline _ ih => exact .plain quote backslash newline ih
  | escaped c _ ih => exact .escaped c ih

theorem escapedWidth?_of_quotable {body : Text} (h : QuotableBody body) (behind : Text) :
    escapedWidth? '"' (body ++ '"' :: behind) = some (body.length + 1) :=
  escapedWidth?_of_body (by decide) (literalBody_of_quotable h) behind

theorem endsBefore_quoted {body : Text} (h : QuotableBody body) (behind : Text) :
    Word.EndsBefore ⟨.quoted .double, '"' :: (body ++ ['"'])⟩ behind := by
  refine ⟨'"', body ++ ['"'], rfl, by decide, ?_⟩
  have hfirst : first? '"' (body ++ ['"'] ++ behind) =
      (escapedWidth? '"' (body ++ ['"'] ++ behind)).map fun width => (.quoted .double, width) := rfl
  rw [hfirst, List.append_assoc, List.singleton_append, escapedWidth?_of_quotable h,
    List.length_append]
  rfl

/-- A block comment ends at the first mark behind its own. -/
theorem endsBefore_blockComment {inside : Text} (h : EndsAt "*/" inside) (behind : Text) :
    Word.EndsBefore ⟨.blockComment, "/*" ++ inside ++ "*/"⟩ behind := by
  refine ⟨'/', '*' :: (inside ++ "*/"), rfl, by decide, ?_⟩
  have hsplit : split? "*/" (inside ++ "*/" ++ behind) = some (inside, behind) :=
    split?_eq_some_iff.mpr ⟨rfl, h⟩
  have hfirst : first? '/' ('*' :: (inside ++ "*/") ++ behind) =
      (split? "*/" (inside ++ "*/" ++ behind)).map fun found =>
        (.blockComment, found.1.length + 3) := rfl
  rw [hfirst, hsplit]
  simp

/-- A line comment goes on to the end of its line. -/
theorem endsBefore_lineComment {inside : Text} (h : '\n' ∉ inside) (behind : Text) :
    Word.EndsBefore ⟨.lineComment, "//" ++ inside⟩ ('\n' :: behind) := by
  refine ⟨'/', '/' :: inside, rfl, by decide, ?_⟩
  have htake : (inside ++ '\n' :: behind).takeWhile (· ≠ '\n') = inside := by
    rw [List.takeWhile_append_of_pos, List.takeWhile_cons_of_neg (by simp), List.append_nil]
    intro c hc
    have : c ≠ '\n' := fun heq => h (heq ▸ hc)
    simpa using this
  have hfirst : first? '/' ('/' :: inside ++ '\n' :: behind) =
      some (.lineComment, ((inside ++ '\n' :: behind).takeWhile (· ≠ '\n')).length + 1) := rfl
  rw [hfirst, htake]
  rfl

theorem ne_of_isNameStart {c : Char} (h : isNameStart c = true) :
    isSpacing c = false ∧ c ≠ '/' ∧ Quote.ofChar? c = none := by
  refine ⟨?_, ?_, ?_⟩
  · rw [Bool.eq_false_iff]
    intro hs
    simp only [isSpacing, decide_eq_true_eq, List.mem_cons, List.not_mem_nil, or_false] at hs
    rcases hs with rfl | rfl | rfl | rfl | rfl <;> revert h <;> decide
  · rintro rfl
    revert h
    decide
  · unfold Quote.ofChar?
    split
    case h_4 => rfl
    all_goals revert h; decide

/-- A name ends before a character that cannot stand in it. -/
theorem endsBefore_name {c : Char} {rest behind : Text} (hc : isNameStart c = true)
    (hrest : ∀ d ∈ rest, isNamePart d = true) (hb : behind.takeWhile isNamePart = []) :
    Word.EndsBefore ⟨.identifier, c :: rest⟩ behind := by
  obtain ⟨hspacing, hslash, hquote⟩ := ne_of_isNameStart hc
  refine ⟨c, rest, rfl, hspacing, ?_⟩
  rw [first?.eq_def]
  split
  · exact absurd rfl hslash
  · exact absurd rfl hslash
  · rw [hquote]
    simp only [if_pos hc]
    rw [List.takeWhile_append_of_pos hrest, hb, List.append_nil]

/-! ## Layout -/

/-- A piece of layout. -/
inductive Filler where
  | spacing (c : Char) (spaces : isSpacing c = true)
  | blockComment (inside : Text) (ends : EndsAt "*/" inside)
  /-- A comment together with the line break that ends it. -/
  | lineComment (inside : Text) (oneLine : '\n' ∉ inside)

def Filler.write : Filler → Text
  | spacing c _ => [c]
  | blockComment inside _ => "/*" ++ inside ++ "*/"
  | lineComment inside _ => "//" ++ inside ++ "\n"

/-- What stands between two words. -/
abbrev Layout := List Filler

def Layout.write (layout : Layout) : Text := layout.flatMap Filler.write

/-- Layout holds nothing that a name could go on with. -/
theorem takeWhile_layout (layout : Layout) {behind : Text}
    (hb : behind.takeWhile isNamePart = []) :
    (layout.write ++ behind).takeWhile isNamePart = [] := by
  cases layout with
  | nil => exact hb
  | cons filler later =>
    cases filler with
    | blockComment inside ends => exact List.takeWhile_cons_of_neg (by decide)
    | lineComment inside oneLine => exact List.takeWhile_cons_of_neg (by decide)
    | spacing c spaces =>
      refine List.takeWhile_cons_of_neg ?_
      simp only [isSpacing, decide_eq_true_eq, List.mem_cons, List.not_mem_nil, or_false] at spaces
      rcases spaces with rfl | rfl | rfl | rfl | rfl <;> decide

/-- The lexemes that are not comments. -/
def withoutComments (lexemes : List Lexeme) : List Lexeme :=
  lexemes.filter fun lexeme => !lexeme.isComment

/-- The source is read, and these are its lexemes but for comments. -/
def ReadsAs (position : Position) (source : Text) (lexemes : List Lexeme) : Prop :=
  ∃ all, readFrom position source = .ok all ∧ withoutComments all = lexemes

theorem readsAs_word {word : Word} {behind : Text} (h : word.EndsBefore behind)
    {position : Position} {lexemes : List Lexeme}
    (later : ReadsAs (position.advance word.text) behind lexemes) :
    ReadsAs position (word.text ++ behind) (withoutComments [word.at position] ++ lexemes) := by
  obtain ⟨all, hall, rfl⟩ := later
  refine ⟨word.at position :: all, ?_, ?_⟩
  · rw [readFrom_word h, hall]
    rfl
  · exact List.filter_append [word.at position] all

theorem readsAs_filler (filler : Filler) {position : Position} {behind : Text}
    {lexemes : List Lexeme} (later : ReadsAs (position.advance filler.write) behind lexemes) :
    ReadsAs position (filler.write ++ behind) lexemes := by
  cases filler with
  | spacing c spaces =>
    obtain ⟨all, hall, hlexemes⟩ := later
    exact ⟨all, (readFrom_spacing spaces position behind).trans hall, hlexemes⟩
  | blockComment inside ends => exact readsAs_word (endsBefore_blockComment ends behind) later
  | lineComment inside oneLine =>
    have hword := endsBefore_lineComment oneLine behind
    have hbreak : ReadsAs (position.advance ("//" ++ inside)) ('\n' :: behind) lexemes := by
      obtain ⟨all, hall, hlexemes⟩ := later
      refine ⟨all, ?_, hlexemes⟩
      rw [readFrom_spacing (by decide), ← hall, ← Position.advance_append]
      rfl
    have := readsAs_word hword hbreak
    rw [Filler.write, List.append_assoc]
    exact this

theorem readsAs_layout (layout : Layout) {position : Position} {behind : Text}
    {lexemes : List Lexeme} (later : ReadsAs (position.advance layout.write) behind lexemes) :
    ReadsAs position (layout.write ++ behind) lexemes := by
  induction layout generalizing position with
  | nil => simpa [Layout.write] using later
  | cons filler others ih =>
    have hwrite : Layout.write (filler :: others) = filler.write ++ Layout.write others := rfl
    rw [hwrite, Position.advance_append] at later
    rw [hwrite, List.append_assoc]
    exact readsAs_filler filler (ih later)

/-! ## Words with layout between them -/

/-- The words, and behind each its layout; the first of them has the number `n`. -/
def writeFrom (gaps : Nat → Layout) (n : Nat) : List Word → Text
  | [] => []
  | word :: later => word.text ++ ((gaps (n + 1)).write ++ writeFrom gaps (n + 1) later)

/-- The words with layout before, between and behind them: `gaps n` stands before the word with the
number `n`. -/
def writeWords (gaps : Nat → Layout) (words : List Word) : Text :=
  (gaps 0).write ++ writeFrom gaps 0 words

theorem writeFrom_append (gaps : Nat → Layout) (n : Nat) (a b : List Word) :
    writeFrom gaps n (a ++ b) = writeFrom gaps n a ++ writeFrom gaps (n + a.length) b := by
  induction a generalizing n with
  | nil => rfl
  | cons word a ih =>
    rw [List.cons_append, writeFrom, writeFrom, ih, List.length_cons,
      show n + 1 + a.length = n + (a.length + 1) by omega]
    simp only [List.append_assoc]

theorem writeWords_append (gaps : Nat → Layout) (a b : List Word) :
    writeWords gaps (a ++ b) = writeWords gaps a ++ writeFrom gaps a.length b := by
  rw [writeWords, writeFrom_append, Nat.zero_add, ← List.append_assoc, ← writeWords]

/-- The place of a word that `before` are written before. -/
def placeBehind (gaps : Nat → Layout) (before : List Word) : Position :=
  Position.start.advance (writeWords gaps before)

/-- The lexemes of words that follow those of `before`. -/
def placeWords (gaps : Nat → Layout) (before : List Word) : List Word → List Lexeme
  | [] => []
  | word :: later => word.at (placeBehind gaps before) :: placeWords gaps (before ++ [word]) later

theorem placeWords_append (gaps : Nat → Layout) (before a b : List Word) :
    placeWords gaps before (a ++ b) =
      placeWords gaps before a ++ placeWords gaps (before ++ a) b := by
  induction a generalizing before with
  | nil => simp [placeWords]
  | cons word a ih => simp [placeWords, ih]

/-- Each word ends before what is written behind it, whatever the layout is. -/
def Separate : List Word → Prop
  | [] => True
  | word :: later =>
    (∀ gaps n, word.EndsBefore ((gaps (n + 1)).write ++ writeFrom gaps (n + 1) later)) ∧
      word.kind.isComment = false ∧ Separate later

theorem readsAs_writeFrom {words : List Word} (h : Separate words) (gaps : Nat → Layout)
    (before : List Word) :
    ReadsAs (placeBehind gaps before) (writeFrom gaps before.length words)
      (placeWords gaps before words) := by
  induction words generalizing before with
  | nil => exact ⟨[], readFrom_nil _, rfl⟩
  | cons word later ih =>
    obtain ⟨hends, hcode, hlater⟩ := h
    have hnext : (placeBehind gaps before).advance (word.text ++ (gaps (before.length + 1)).write) =
        placeBehind gaps (before ++ [word]) := by
      rw [placeBehind, placeBehind, ← Position.advance_append, writeWords_append]
      simp [writeFrom]
    have hrest := ih hlater (before ++ [word])
    rw [← hnext, Position.advance_append, List.length_append, List.length_singleton] at hrest
    have := readsAs_word (hends gaps before.length) (readsAs_layout _ hrest)
    rwa [show withoutComments [word.at (placeBehind gaps before)] =
      [word.at (placeBehind gaps before)] by simp [withoutComments, isComment, Word.at, hcode]] at this

/-- Words are read as they are written, each in its place. -/
theorem readsAs_writeWords {words : List Word} (h : Separate words) (gaps : Nat → Layout) :
    ReadsAs .start (writeWords gaps words) (placeWords gaps [] words) := by
  refine readsAs_layout (gaps 0) ?_
  have := readsAs_writeFrom h gaps []
  rwa [show placeBehind gaps [] = Position.start.advance (gaps 0).write by
    simp [placeBehind, writeWords, writeFrom]] at this

end Phrasebook.Lexeme
