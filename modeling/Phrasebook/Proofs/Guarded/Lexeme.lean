import Phrasebook.Proofs.Guarded.Basic
import Phrasebook.Proofs.Lexeme.Segmentation
import Phrasebook.Proofs.LineIndex

/-!
# Lexemes as spans of their source

Here a lexeme keeps the two offsets of its text and not the text itself, and its line is looked up among
the beginnings of all lines.
-/

namespace Phrasebook

open Text

/-- A token as two offsets of its source. -/
structure Span where
  kind : Lexeme.Kind
  start : Nat
  stop : Nat
  line : Nat
  deriving DecidableEq, Repr

def Lexeme.span (lexeme : Lexeme) : Span :=
  ⟨lexeme.kind, lexeme.position.offset, lexeme.stop, lexeme.line⟩

namespace Guarded

/-! ## The text of a span -/

def text (source : Text) (span : Span) : Guarded Text := slice source span.start span.stop

/-- A text without so many bytes at its two ends. -/
def stripped (text : Text) (width : Nat) : Guarded Text := do
  let stop ← minus (byteLength text) width
  slice text width stop

/-- What a token with this text says, without its quotes or marks. -/
def bodyOf (kind : Lexeme.Kind) (text : Text) : Guarded Text :=
  match kind with
  | .quoted _ => stripped text 1
  | .lineComment => do
    let inside ← sliceFrom text 2
    return trim inside
  | .blockComment => do
    let inside ← stripped text 2
    return trim inside
  | _ => return text

def body (source : Text) (span : Span) : Guarded Text := do
  let text ← text source span
  bodyOf span.kind text

/-- The last line that a token touches. -/
def lastLine (source : Text) (span : Span) : Guarded Nat := do
  let text ← text source span
  return span.line + newlines text

/-- The lexeme is a token and stands in the source where it says. -/
structure InSource (source : Text) (lexeme : Lexeme) : Prop where
  token : Lexeme.IsToken lexeme.kind lexeme.text
  place : ∃ behind, lexeme.position.PointsAt source (lexeme.text ++ behind)

theorem stripped_eq (before inside behind : Text) {width : Nat} (hbefore : byteLength before = width)
    (hbehind : byteLength behind = width) :
    stripped (before ++ (inside ++ behind)) width = .ok inside := by
  rw [stripped, minus_eq (by rw [byteLength_append]; omega), ok_bind]
  apply slice_eq before behind rfl hbefore
  rw [byteLength_append, byteLength_append]
  omega

theorem bodyOf_spec {kind : Lexeme.Kind} {text : Text} (h : Lexeme.IsToken kind text)
    (position : Position) : bodyOf kind text = .ok (Lexeme.body ⟨kind, text, position⟩) := by
  have hquoted : ∀ (quote : Quote) (inside : Text),
      bodyOf (.quoted quote) (quote.mark :: (inside ++ [quote.mark])) =
        .ok (Lexeme.body ⟨.quoted quote, quote.mark :: (inside ++ [quote.mark]), position⟩) := by
    intro quote inside
    have hmark : byteLength [quote.mark] = 1 := by cases quote <;> rfl
    refine (stripped_eq [quote.mark] inside [quote.mark] hmark hmark).trans ?_
    simp [Lexeme.body]
  cases h with
  | quoted escapes _ => exact hquoted _ _
  | raw ends => exact hquoted .backtick _
  | @lineComment inside oneLine =>
    have hopen : byteLength "//" = 2 := rfl
    rw [bodyOf, sliceFrom_eq "//" rfl hopen]
    rfl
  | @blockComment inside ends =>
    have hopen : byteLength "/*" = 2 := rfl
    have hclose : byteLength "*/" = 2 := rfl
    rw [bodyOf, List.append_assoc, stripped_eq _ _ _ hopen hclose]
    simp [Lexeme.body]
  | _ => rfl

section

variable {source : Text} {lexeme : Lexeme} (h : InSource source lexeme)

include h

theorem text_spec : text source lexeme.span = .ok lexeme.text := by
  obtain ⟨behind, hplace⟩ := h.place
  exact slice_position [] _ hplace (by simp [Lexeme.span]) rfl

theorem lastLine_spec : lastLine source lexeme.span = .ok lexeme.lastLine := by
  rw [lastLine, text_spec h, ok_bind]
  rfl

theorem body_spec : body source lexeme.span = .ok lexeme.body := by
  rw [body, text_spec h, ok_bind]
  exact bodyOf_spec h.token lexeme.position

end

/-! ## The lexer -/

/-- The kind and the end of the token at `start`, where `c :: rest` stands. The end of a comment is
searched for and gone to. -/
def tokenAt (source : Text) (start : Nat) (c : Char) (rest : Text) :
    Guarded (Option (Lexeme.Kind × Nat)) :=
  if begins "/*" (c :: rest) then do
    let inside ← sliceFrom source (start + 2)
    match find? "*/" inside with
    | none => return none
    | some width =>
      let stop := start + 2 + (width + 2)
      let _ ← sliceFrom source stop
      return some (.blockComment, stop)
  else
    return (Lexeme.first? c rest).map fun (kind, width) =>
      (kind, start + byteLength (c :: rest.take width))

/-- Why no token stands before `rest`. -/
def refusal (rest : Text) : Fault.Cause :=
  if begins "\"" rest || begins "'" rest || begins "`" rest then .unterminatedString
  else if begins "/*" rest then .unterminatedComment
  else .unexpectedCharacter (rest.head?.getD '\x00')

/-- The tokens from `start` on, in at most so many rounds. -/
def tokenizeFrom (source : Text) (starts : List Nat) : Nat → Nat → Guarded (Except Fault (List Span))
  | 0, _ => .error .endless
  | rounds + 1, start => do
    match ← sliceFrom source start with
    | [] => return .ok []
    | c :: rest =>
      if Lexeme.isSpacing c then tokenizeFrom source starts rounds (start + c.utf8Size)
      else
        match ← tokenAt source start c rest with
        | some (kind, stop) =>
          let others ← tokenizeFrom source starts rounds stop
          return others.map (⟨kind, start, stop, lineAt starts start⟩ :: ·)
        | none =>
          let rest ← sliceFrom source start
          return .error ⟨refusal rest, ⟨start, lineAt starts start⟩⟩

def tokenize (source : Text) : Guarded (Except Fault (List Span)) :=
  tokenizeFrom source (lineStarts source) (byteLength source + 1) 0

theorem tokenAt_spec {source : Text} {position : Position} {c : Char} {rest : Text}
    (h : position.PointsAt source (c :: rest)) :
    tokenAt source position.offset c rest = .ok ((Lexeme.first? c rest).map fun (kind, width) =>
      (kind, position.offset + byteLength (c :: rest.take width))) := by
  unfold tokenAt
  split
  · rename_i hbegins
    obtain ⟨body, hbody⟩ := Option.isSome_iff_exists.mp hbegins
    have hstands : c :: rest = '/' :: '*' :: body := after?_eq_some.mp hbody
    cases hstands
    have hinside : (position.advance "/*").PointsAt source body := h.advance
    have hslice : sliceFrom source (position.offset + 2) = .ok body := sliceFrom_position hinside
    have hfirst : Lexeme.first? '/' ('*' :: body) =
        (split? "*/" body).map fun found => (.blockComment, found.1.length + 3) := rfl
    rw [hslice, ok_bind, find?, hfirst]
    cases hsplit : split? "*/" body with
    | none => rfl
    | some found =>
      obtain ⟨inside, behind⟩ := found
      obtain rfl : body = inside ++ "*/" ++ behind := append_of_split? hsplit
      have hclose : byteLength "*/" = 2 := rfl
      have hstop : sliceFrom source (position.offset + 2 + (byteLength inside + 2)) = .ok behind := by
        have := sliceFrom_position hinside.advance
        have hopen : byteLength "/*" = 2 := rfl
        simpa only [Position.advance, byteLength_append, hopen, hclose] using this
      have htaken : ('*' :: (inside ++ "*/" ++ behind)).take (inside.length + 3) =
          '*' :: (inside ++ "*/") := by
        rw [List.take_succ_cons, List.take_left' (by simp)]
      simp only [Option.map_some, hstop, ok_bind, pure_eq_ok, htaken]
      have hmark : ('/'.utf8Size = 1) ∧ '*'.utf8Size = 1 := ⟨rfl, rfl⟩
      congr 3
      simp only [byteLength_cons, byteLength_append, hclose, hmark]
      omega
  · rfl

theorem refusal_spec (c : Char) (rest : Text) : refusal (c :: rest) = Lexeme.refusal c rest := by
  have hmark : ∀ mark : Char, begins [mark] (c :: rest) = decide (c = mark) := by
    intro mark
    by_cases h : c = mark
    · simp [begins, after?, h]
    · simp [begins, after?, h, Ne.symm h]
  have hquote : (begins "\"" (c :: rest) || begins "'" (c :: rest) || begins "`" (c :: rest)) =
      (Quote.ofChar? c).isSome := by
    rw [show "\"".toList = ['"'] from rfl, show "'".toList = ['\''] from rfl,
      show "`".toList = ['`'] from rfl, hmark, hmark, hmark]
    unfold Quote.ofChar?
    split <;> simp_all
  have hcomment : begins "/*" (c :: rest) = true ↔ c = '/' ∧ begins "*" rest = true := by
    by_cases h : c = '/'
    · simp [begins, after?, h]
    · simp [begins, after?, h, Ne.symm h]
  unfold refusal Lexeme.refusal
  simp only [hquote, hcomment]
  rfl

theorem tokenizeFrom_spec {source : Text} {position : Position} {rest : Text} {rounds : Nat}
    (h : position.PointsAt source rest) (hrounds : rest.length < rounds) :
    tokenizeFrom source (lineStarts source) rounds position.offset =
      .ok ((Lexeme.readFrom position rest).map (List.map Lexeme.span)) := by
  fun_induction Lexeme.readFrom position rest generalizing rounds with
  | case1 position =>
    obtain ⟨rounds, rfl⟩ := Nat.exists_eq_add_one_of_ne_zero (Nat.ne_zero_of_lt hrounds)
    rw [tokenizeFrom, sliceFrom_position h]
    rfl
  | case2 position c rest hspacing ih =>
    obtain ⟨rounds, rfl⟩ := Nat.exists_eq_add_one_of_ne_zero (Nat.ne_zero_of_lt hrounds)
    have hnext : (position.advance [c]).PointsAt source rest := h.advance
    rw [tokenizeFrom, sliceFrom_position h, ok_bind]
    simp only [hspacing, if_true]
    exact ih hnext (by simpa using hrounds)
  | case3 position c rest hspacing hfirst =>
    obtain ⟨rounds, rfl⟩ := Nat.exists_eq_add_one_of_ne_zero (Nat.ne_zero_of_lt hrounds)
    have hin : position.IsIn source := ⟨c, rest, h⟩
    rw [tokenizeFrom, sliceFrom_position h, ok_bind]
    simp only [hspacing, tokenAt_spec h, hfirst, ok_bind, Option.map_none, refusal_spec,
      hin.lineAt_eq]
    rfl
  | case4 position c rest hspacing kind width hfirst text =>
    rename_i ih
    obtain ⟨rounds, rfl⟩ := Nat.exists_eq_add_one_of_ne_zero (Nat.ne_zero_of_lt hrounds)
    have hin : position.IsIn source := ⟨c, rest, h⟩
    have hnext : (position.advance (c :: rest.take width)).PointsAt source (rest.drop width) := by
      apply Position.PointsAt.advance
      rwa [List.cons_append, List.take_append_drop]
    have hless : (rest.drop width).length < rounds := by
      simp only [List.length_cons, List.length_drop] at hrounds ⊢
      omega
    rw [tokenizeFrom, sliceFrom_position h, ok_bind]
    simp only [hspacing, tokenAt_spec h, hfirst, ok_bind, Option.map_some, hin.lineAt_eq]
    rw [if_neg (by simp)]
    have hothers : tokenizeFrom source (lineStarts source) rounds
        (position.offset + byteLength (c :: rest.take width)) =
          .ok ((Lexeme.readFrom (position.advance (c :: rest.take width)) (rest.drop width)).map
            (List.map Lexeme.span)) := ih hnext hless
    rw [hothers, ok_bind]
    cases Lexeme.readFrom (position.advance (c :: rest.take width)) (rest.drop width) <;> rfl

theorem tokenize_spec (source : Text) :
    tokenize source = .ok ((Lexeme.readAll source).map (List.map Lexeme.span)) := by
  have hlength := length_le_byteLength source
  have hstart := Position.pointsAt_start source
  rw [List.append_nil] at hstart
  exact tokenizeFrom_spec hstart (by omega)

end Guarded

end Phrasebook
