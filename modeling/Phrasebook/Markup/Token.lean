import Phrasebook.Fault
import Phrasebook.Markup.Attribute

/-!
# Markup tokens

A page is a sequence of tokens and of declarations, which are dropped. Text is kept as written, with
its entities, and the inside of a server block is kept unread. Behind the start tag of an element
with raw text, everything up to its own end tag is one text.
-/

namespace Phrasebook.Markup

/-- A part of a page that holds no other part. -/
inductive Leaf where
  | text (text : Text)
  | comment (text : Text)
  /-- The inside of a block of server code. -/
  | serverCode (code : Text)
  deriving DecidableEq, Repr

inductive Token where
  | openTag (tag : Tag)
  | closeTag (name : Text)
  | leaf (leaf : Leaf)
  deriving DecidableEq, Repr

/-- A token and the place of its first character. -/
structure Placed where
  token : Token
  position : Position
  deriving DecidableEq, Repr

/-! ## Pieces -/

/-- A token, or a declaration, which has none, and how many characters it takes behind its first. -/
structure Piece where
  token : Option Token
  width : Nat
  deriving DecidableEq, Repr

namespace Piece

/-- Whether the text begins with markup; a `<` before anything else is text. -/
def startsMarkup : Text → Bool
  | '<' :: c :: _ => c.isAlpha || ['!', '?', '/'].contains c
  | _ => false

/-- A processing instruction that declares XML; it is no server code. -/
def isXmlDeclaration (code : Text) : Bool :=
  Text.beginsNoCase "xml" code && (code[3]?).any Text.isBlank

/-- The text before the first `>` that is not in quotes; `quote` is the quote that is open. -/
def tagInside? (quote : Option Char) : Text → Option Text
  | [] => none
  | c :: rest =>
    match quote with
    | some q => (tagInside? (if c = q then none else some q) rest).map (c :: ·)
    | none =>
      if c = '>' then some []
      else (tagInside? (if c = '"' ∨ c = '\'' then some c else none) rest).map (c :: ·)

/-- The piece that ends at the first `mark` in `body`, where `skipped` characters stand between the
first one and `body`. -/
def upTo (mark : Text) (skipped : Nat) (cause : Fault.Cause) (body : Text)
    (token : Text → Option Token) : Except Fault.Cause Piece :=
  match Text.split? mark body with
  | some (inside, _) => .ok ⟨token inside, skipped + inside.length + mark.length⟩
  | none => .error cause

/-- The tag whose text behind the `<` is `rest`. -/
def tag (rest : Text) (token : Text → Token) : Except Fault.Cause Piece :=
  match tagInside? none rest with
  | some inside => .ok ⟨some (token inside), inside.length + 1⟩
  | none => .error .unterminatedTag

/-- Text that begins with `c`, up to the next markup. -/
def text (c : Char) (rest : Text) : Piece :=
  let inside := match Text.breakWhere? startsMarkup rest with
    | some (inside, _) => inside
    | none => rest
  ⟨some (.leaf (.text (c :: inside))), inside.length⟩

/-- The piece at the beginning of `c :: rest`. -/
def first (c : Char) (rest : Text) : Except Fault.Cause Piece :=
  match c, rest with
  | '<', '!' :: '-' :: '-' :: body =>
    upTo "-->" 3 .unterminatedComment body fun inside => some (.leaf (.comment inside))
  | '<', '?' :: body =>
    upTo "?>" 1 .unterminatedInstruction body fun inside =>
      if isXmlDeclaration inside then none else some (.leaf (.serverCode inside))
  | '<', '!' :: body => upTo ">" 1 .unterminatedTag body fun _ => none
  | '<', '/' :: _ => tag rest fun inside => .closeTag (Text.lower (Text.trim (inside.drop 1)))
  | c, rest =>
    if startsMarkup (c :: rest) then tag rest fun inside => .openTag (.read inside)
    else .ok (text c rest)

/-- The raw text at the beginning of `c :: rest`, up to the end tag of the element `name`; there is
none if that end tag stands here. -/
def rawText? (name : Text) (c : Char) (rest : Text) : Option Piece :=
  let closes := Text.beginsNoCase ("</" ++ name)
  if closes (c :: rest) then none
  else
    let inside := match Text.breakWhere? closes rest with
      | some (inside, _) => inside
      | none => rest
    some ⟨some (.leaf (.text (c :: inside))), inside.length⟩

end Piece

/-! ## The reader -/

/-- Where a reader of tokens stands. -/
structure Reader where
  /-- What is left to read. -/
  rest : Text
  position : Position
  /-- The element with raw text that has just been opened. -/
  rawTextOf : Option Text
  deriving DecidableEq, Repr

namespace Reader

/-- At the beginning of a page. -/
def ofSource (source : Text) : Reader := ⟨source, .start, none⟩

/-- The piece that a reader finds before it, which begins with `c`. -/
def piece (reader : Reader) (c : Char) (rest : Text) : Except Fault.Cause Piece :=
  match reader.rawTextOf.bind fun name => Piece.rawText? name c rest with
  | some piece => .ok piece
  | none => Piece.first c rest

/-- The element whose raw text follows a token. -/
def rawTextAfter : Option Token → Option Text
  | some (.openTag tag) => if tag.startsRawText then some tag.name else none
  | _ => none

/-- The reader behind a piece of the text `c :: rest`. -/
def behind (reader : Reader) (c : Char) (rest : Text) (piece : Piece) : Reader :=
  ⟨rest.drop piece.width, reader.position.advance (c :: rest.take piece.width),
   rawTextAfter piece.token⟩

/-- The next token, or nothing at the end of the page, and the reader behind it. A fault leaves the
reader where it arises. -/
def next (reader : Reader) : Except Fault (Option Placed) × Reader :=
  match _h : reader.rest with
  | [] => (.ok none, reader)
  | c :: rest =>
    match reader.piece c rest with
    | .error cause => (.error ⟨cause, reader.position⟩, ⟨c :: rest, reader.position, none⟩)
    | .ok piece =>
      match piece.token with
      | some token => (.ok (some ⟨token, reader.position⟩), reader.behind c rest piece)
      | none => next (reader.behind c rest piece)
  termination_by reader.rest.length
  decreasing_by simp only [behind, _h, List.length_drop, List.length_cons]; omega

/-- Each token shortens what is left. -/
theorem length_lt_of_next {reader later : Reader} {placed : Placed}
    (h : reader.next = (.ok (some placed), later)) : later.rest.length < reader.rest.length := by
  fun_induction next reader with
  | case1 => simp at h
  | case2 => simp at h
  | case3 reader c rest heq piece hp token ht =>
    simp only [Prod.mk.injEq] at h
    rw [← h.2, heq]
    simp only [behind, List.length_drop, List.length_cons]; omega
  | case4 reader c rest heq piece hp ht ih =>
    have := ih h
    rw [heq]
    simp only [behind, List.length_drop, List.length_cons] at this ⊢; omega

/-- What the calls of `next` answer, one after another, `count` times. -/
def steps : Nat → Reader → List (Except Fault (Option Placed))
  | 0, _ => []
  | count + 1, reader => reader.next.1 :: steps count reader.next.2

end Reader

/-- The tokens of a page up to its end or its first fault. -/
structure TokenStream where
  tokens : List Placed
  fault : Option Fault
  deriving DecidableEq, Repr

/-- The tokens from here on. -/
def Reader.stream (reader : Reader) : TokenStream :=
  match _h : reader.next with
  | (.error fault, _) => ⟨[], some fault⟩
  | (.ok none, _) => ⟨[], none⟩
  | (.ok (some placed), later) =>
    let others := later.stream
    ⟨placed :: others.tokens, others.fault⟩
  termination_by reader.rest.length
  decreasing_by exact length_lt_of_next _h

def TokenStream.ofSource (source : Text) : TokenStream := (Reader.ofSource source).stream

end Phrasebook.Markup
