import Phrasebook.Proofs.Guarded.Escape
import Phrasebook.Proofs.Guarded.Lexeme
import Phrasebook.Proofs.Markup.Segments

/-!
# Tokens by offsets

Here a reader of tokens stands at an offset of the page. What it takes is cut out between two offsets, and
raw text ends where its end tag is found in the rest of the page in lower case.
-/

namespace Phrasebook

open Text

namespace Guarded

open Markup

/-! ## Pieces -/

/-- Whether the text begins with `mark`, up to the case of ASCII letters: of the text so many bytes are
compared, if they are whole characters. -/
def beginsAs (mark text : Text) : Bool :=
  (cut? (byteLength mark) text).any fun (front, _) => sameName front mark

/-- Whether the `<` at `offset` starts markup. -/
def startsMarkup (source : Text) (offset : Nat) : Guarded Bool := do
  let rest ← sliceFrom source (offset + 1)
  return rest.head?.any fun c => c.isAlpha || ['!', '?', '/'].contains c

/-- The piece that begins at `start` with a mark of the given width and ends with the first `mark`
behind it, and the offset where it ends. -/
def upTo (source : Text) (start width : Nat) (mark : Text) (cause : Fault.Cause)
    (token : Text → Guarded (Option Token)) : Guarded (Except Fault.Cause (Option Token × Nat)) := do
  let rest ← sliceFrom source (start + width)
  match find? mark rest with
  | none => return .error cause
  | some close =>
    let inside ← slice source (start + width) (start + width + close)
    let token ← token inside
    return .ok (token, start + width + close + byteLength mark)

def isXmlDeclaration (code : Text) : Guarded Bool :=
  if beginsAs "xml" code then do
    let rest ← sliceFrom code 3
    return rest.head?.any isBlank
  else return false

/-- The offset of the first `>` that is not in quotes. -/
def tagStop? (quote : Option Char) (offset : Nat) : Text → Option Nat
  | [] => none
  | c :: rest =>
    match quote with
    | some q => tagStop? (if c = q then none else some q) (offset + c.utf8Size) rest
    | none =>
      if c = '>' then some offset
      else tagStop? (if c = '"' ∨ c = '\'' then some c else none) (offset + c.utf8Size) rest

/-- The tag at `start`, its text being cut out from `width` bytes behind `start`. -/
def tagAt (source : Text) (start width : Nat) (token : Text → Guarded Token) :
    Guarded (Except Fault.Cause (Option Token × Nat)) := do
  let rest ← sliceFrom source start
  match tagStop? none start rest with
  | none => return .error .unterminatedTag
  | some stop =>
    let inside ← slice source (start + width) stop
    let token ← token inside
    return .ok (some token, stop + 1)

/-- How many bytes of a text are the name of a tag. -/
def nameLength (inside : Text) : Nat :=
  if inside.head?.any Char.isAlpha then byteLength (inside.takeWhile isTagNamePart) else 0

def openTag (inside : Text) : Guarded Tag := do
  let name ← sliceTo inside (nameLength inside)
  let body ← sliceFrom inside (nameLength inside)
  return ⟨lower name, Attribute.readAll body, (trimEnd body).getLast? = some '/'⟩

/-- Where the text from `start` on ends, the search going on at `search`, in at most so many rounds. -/
def textStop (source : Text) (start : Nat) : Nat → Nat → Guarded Nat
  | 0, _ => .error .endless
  | rounds + 1, search => do
    let rest ← sliceFrom source search
    match find? "<" rest with
    | none => return byteLength source
    | some offset =>
      let candidate := search + offset
      let ends ← if start < candidate then startsMarkup source candidate else pure false
      if ends then return candidate else textStop source start rounds (candidate + 1)

def textAt (source : Text) (start stop : Nat) : Guarded (Except Fault.Cause (Option Token × Nat)) := do
  let content ← slice source start stop
  return .ok (some (.leaf (.text content)), stop)

/-- Where the raw text from `start` on ends. -/
def rawTextStop (source : Text) (start : Nat) (name : Text) : Guarded Nat := do
  let rest ← sliceFrom source start
  return match find? ("</" ++ name) (lower rest) with
    | none => byteLength source
    | some offset => start + offset

/-- Whether the rest of the page from `start` on begins with markup. -/
def opensTag (source : Text) (start : Nat) (rest : Text) : Guarded Bool :=
  if begins "<" rest then startsMarkup source start else return false

/-- The piece at `start`, where no raw text is. -/
def markupAt (source : Text) (start : Nat) : Guarded (Except Fault.Cause (Option Token × Nat)) := do
  let rest ← sliceFrom source start
  if begins "<!--" rest then
    upTo source start 4 "-->" .unterminatedComment fun inside => return some (.leaf (.comment inside))
  else if begins "<?" rest then
    upTo source start 2 "?>" .unterminatedInstruction fun inside => do
      let declares ← isXmlDeclaration inside
      return if declares then none else some (.leaf (.serverCode inside))
  else if begins "<!" rest then upTo source start 2 ">" .unterminatedTag fun _ => return none
  else if begins "</" rest then
    tagAt source start 2 fun inside => return .closeTag (lower (trim inside))
  else if ← opensTag source start rest then
    tagAt source start 1 fun inside => do
      let tag ← openTag inside
      return .openTag tag
  else
    let stop ← textStop source start (byteLength source + 1) start
    textAt source start stop

/-- The piece at `start`, behind the start tag of the element with raw text `rawTextOf`. -/
def pieceAt (source : Text) (start : Nat) (rawTextOf : Option Text) :
    Guarded (Except Fault.Cause (Option Token × Nat)) :=
  match rawTextOf with
  | none => markupAt source start
  | some name => do
    let rest ← sliceFrom source start
    if beginsAs ("</" ++ name) rest then markupAt source start
    else
      let stop ← rawTextStop source start name
      textAt source start stop

/-! ## The reader -/

/-- Where a reader of tokens stands. -/
structure Cursor where
  offset : Nat
  rawTextOf : Option Text

/-- The next token, or nothing at the end of the page, and the cursor behind it, in at most so many
rounds. -/
def nextFrom (source : Text) (starts : List Nat) :
    Nat → Cursor → Guarded (Except Fault (Option Placed × Cursor))
  | 0, _ => .error .endless
  | rounds + 1, cursor =>
    if byteLength source ≤ cursor.offset then return .ok (none, cursor)
    else do
      let position : Position := ⟨cursor.offset, lineAt starts cursor.offset⟩
      match ← pieceAt source cursor.offset cursor.rawTextOf with
      | .error cause => return .error ⟨cause, position⟩
      | .ok (some token, stop) =>
        return .ok (some ⟨token, position⟩, ⟨stop, Reader.rawTextAfter (some token)⟩)
      | .ok (none, stop) => nextFrom source starts rounds ⟨stop, none⟩

def next (source : Text) (cursor : Cursor) : Guarded (Except Fault (Option Placed × Cursor)) :=
  nextFrom source (lineStarts source) (byteLength source + 1) cursor

/-! ## Letter case and bytes -/

theorem utf8Size_toLower (c : Char) : c.toLower.utf8Size = c.utf8Size :=
  apply_toLower (by decide) c

theorem byteLength_lower (text : Text) : byteLength (lower text) = byteLength text := by
  induction text with
  | nil => rfl
  | cons c rest ih => rw [lower_cons, byteLength_cons, byteLength_cons, utf8Size_toLower, ih]

theorem beginsAs_eq (mark text : Text) : beginsAs mark text = beginsNoCase mark text := by
  rw [Bool.eq_iff_iff]
  simp only [beginsAs, beginsNoCase, sameName, beq_iff_eq, Option.any_eq_true, Prod.exists,
    cut?_eq_some_iff]
  constructor
  · rintro ⟨front, behind, ⟨rfl, -⟩, hsame⟩
    have hlength := congrArg List.length hsame
    rw [length_lower, length_lower] at hlength
    rw [List.take_left' hlength, hsame]
  · intro hsame
    refine ⟨text.take mark.length, text.drop mark.length, ⟨(List.take_append_drop ..).symm, ?_⟩, hsame.symm⟩
    rw [← byteLength_lower, ← hsame, byteLength_lower]

/-- A mark without capitals begins in the lower case of a text where it begins in the text in any case. -/
theorem begins_lower {mark : Text} (h : lower mark = mark) (text : Text) :
    begins mark (lower text) = beginsNoCase mark text := by
  rw [Bool.eq_iff_iff, begins_iff, beginsNoCase, sameName, beq_iff_eq, h, lower_take,
    List.prefix_iff_eq_take]

theorem find?_lower {mark : Text} (h : lower mark = mark) (text : Text) :
    find? mark (lower text) =
      (breakWhere? (beginsNoCase mark) text).map fun (before, _) => byteLength before := by
  have hbreak : breakWhere? (begins mark) (lower text) =
      (breakWhere? (beginsNoCase mark) text).map fun (before, behind) => (lower before, lower behind) := by
    induction text with
    | nil =>
      have hnil := begins_lower h []
      rw [lower_nil] at hnil
      rw [lower_nil, breakWhere?, breakWhere?, hnil]
      split <;> rfl
    | cons c rest ih =>
      have hcons := begins_lower h (c :: rest)
      rw [lower_cons] at hcons
      rw [lower_cons, breakWhere?, breakWhere?, hcons, ih]
      split
      · rfl
      · cases breakWhere? (beginsNoCase mark) rest <;> rfl
  rw [find?, split?, hbreak]
  cases breakWhere? (beginsNoCase mark) text with
  | none => rfl
  | some found => exact congrArg some (byteLength_lower found.1)

/-! ## Each kind of piece -/

/-- What a piece is, and the offset behind it. -/
def reach (start : Nat) (text : Text) (piece : Piece) : Option Token × Nat :=
  (piece.token, start + byteLength (text.take (piece.width + 1)))

section

variable {source : Text} {position : Position}

theorem startsMarkup_spec {rest : Text} (h : position.PointsAt source ('<' :: rest)) :
    startsMarkup source position.offset = .ok (Piece.startsMarkup ('<' :: rest)) := by
  have hrest : (position.advance ['<']).PointsAt source rest := h.advance
  have hslice : sliceFrom source (position.offset + 1) = .ok rest := sliceFrom_position hrest
  rw [startsMarkup, hslice]
  cases rest <;> rfl

theorem upTo_spec (before : Text) {body mark : Text} (h : position.PointsAt source (before ++ body))
    {skipped : Nat} (hskipped : before.length = skipped + 1) (cause : Fault.Cause)
    {guarded : Text → Guarded (Option Token)} {token : Text → Option Token}
    (htoken : ∀ inside, guarded inside = .ok (token inside)) :
    upTo source position.offset (byteLength before) mark cause guarded =
      .ok ((Piece.upTo mark skipped cause body token).map (reach position.offset (before ++ body))) := by
  have hbody : (position.advance before).PointsAt source body := h.advance
  have hslice : sliceFrom source (position.offset + byteLength before) = .ok body :=
    sliceFrom_position hbody
  rw [upTo, hslice, ok_bind, find?, Piece.upTo]
  cases hsplit : split? mark body with
  | none => rfl
  | some found =>
    obtain ⟨inside, behind⟩ := found
    obtain rfl : body = inside ++ mark ++ behind := append_of_split? hsplit
    have hinside : slice source (position.offset + byteLength before)
        (position.offset + byteLength before + byteLength inside) = .ok inside := by
      refine slice_position before (mark ++ behind) ?_ rfl rfl
      rwa [List.append_assoc] at h
    have htake : (before ++ (inside ++ mark ++ behind)).take (skipped + inside.length + mark.length + 1) =
        before ++ (inside ++ mark) := by
      rw [← List.append_assoc]
      exact List.take_left' (by simp only [List.length_append]; omega)
    simp only [Option.map_some, hinside, htoken, ok_bind, Except.map, reach, htake, byteLength_append,
      pure_eq_ok]
    simp only [Nat.add_assoc]

theorem tagStop?_eq (quote : Option Char) (offset : Nat) (text : Text) :
    tagStop? quote offset text =
      (Piece.tagInside? quote text).map fun inside => offset + byteLength inside := by
  induction text generalizing quote offset with
  | nil => rfl
  | cons c rest ih =>
    have hstep : ∀ (later : Option Text), (later.map (c :: ·)).map (fun inside => offset + byteLength inside) =
        later.map fun inside => offset + c.utf8Size + byteLength inside := by
      intro later
      rw [Option.map_map]
      congr 1
      funext inside
      exact (Nat.add_assoc ..).symm
    cases quote with
    | some q => rw [tagStop?, Piece.tagInside?, ih, hstep]
    | none =>
      rw [tagStop?, Piece.tagInside?]
      split
      · rfl
      · rw [ih, hstep]

theorem tagAt_spec (skip : Text) {rest : Text} (h : position.PointsAt source ('<' :: rest))
    {guarded : Text → Guarded Token} {token : Text → Token}
    (hinside : ∀ inside, Piece.tagInside? none rest = some inside →
      ∃ more, inside = skip ++ more ∧ guarded more = .ok (token inside)) :
    tagAt source position.offset (byteLength ('<' :: skip)) guarded =
      .ok ((Piece.tag rest token).map (reach position.offset ('<' :: rest))) := by
  have hstop : tagStop? none position.offset ('<' :: rest) =
      (Piece.tagInside? none rest).map fun inside => position.offset + 1 + byteLength inside := by
    rw [← tagStop?_eq]
    rfl
  rw [tagAt, sliceFrom_position h, ok_bind, hstop, Piece.tag]
  cases hfound : Piece.tagInside? none rest with
  | none => rfl
  | some inside =>
    obtain ⟨more, rfl, hguarded⟩ := hinside inside hfound
    obtain ⟨⟨behind, rfl⟩, -⟩ := tagText_of_tagInside? (by simp) hfound
    have hmark : '<'.utf8Size = 1 ∧ '>'.utf8Size = 1 := ⟨rfl, rfl⟩
    have hmore : slice source (position.offset + byteLength ('<' :: skip))
        (position.offset + 1 + byteLength (skip ++ more)) = .ok more := by
      refine slice_position ('<' :: skip) ('>' :: behind) ?_ rfl ?_
      · simpa using h
      · simp only [byteLength_cons, byteLength_append, hmark]
        omega
    have htake : ('<' :: (skip ++ more ++ '>' :: behind)).take ((skip ++ more).length + 1 + 1) =
        '<' :: (skip ++ more ++ ['>']) := by
      rw [List.take_succ_cons]
      have hwhole : skip ++ more ++ '>' :: behind = (skip ++ more ++ ['>']) ++ behind := by simp
      rw [hwhole, List.take_left' (by simp [Nat.add_assoc])]
    simp only [Option.map_some, hmore, hguarded, ok_bind, Except.map, reach, htake, pure_eq_ok]
    congr 3
    simp only [byteLength_cons, byteLength_append, byteLength_nil, hmark]
    omega

theorem openTag_spec {inside : Text} (h : inside.head?.any Char.isAlpha = true) :
    openTag inside = .ok (.read inside) := by
  have hwhole := List.takeWhile_append_dropWhile (p := isTagNamePart) (l := inside)
  have hname : sliceTo inside (nameLength inside) = .ok (inside.takeWhile isTagNamePart) :=
    sliceTo_eq _ hwhole.symm (if_pos h).symm
  have hbody : sliceFrom inside (nameLength inside) = .ok (inside.dropWhile isTagNamePart) :=
    sliceFrom_eq _ hwhole.symm (if_pos h).symm
  have hdrop : inside.drop (inside.takeWhile isTagNamePart).length = inside.dropWhile isTagNamePart := by
    have hbehind : (inside.takeWhile isTagNamePart ++ inside.dropWhile isTagNamePart).drop
        (inside.takeWhile isTagNamePart).length = inside.dropWhile isTagNamePart := List.drop_left
    rwa [hwhole] at hbehind
  rw [openTag, hname, hbody, Tag.read, hdrop]
  rfl

/-! ## Text -/

/-- The text up to where `found` holds of the rest, or all of it. -/
def beforeFound (found : Text → Bool) (text : Text) : Text :=
  match breakWhere? found text with
  | some (inside, _) => inside
  | none => text

theorem beforeFound_of_pos {found : Text → Bool} {text : Text} (h : found text = true) :
    beforeFound found text = [] := by
  cases text <;> simp [beforeFound, breakWhere?, h]

theorem beforeFound_cons {found : Text → Bool} {c : Char} {rest : Text} (h : found (c :: rest) = false) :
    beforeFound found (c :: rest) = c :: beforeFound found rest := by
  simp only [beforeFound, breakWhere?, h]
  cases breakWhere? found rest <;> rfl

theorem exists_beforeFound (found : Text → Bool) (text : Text) :
    ∃ behind, text = beforeFound found text ++ behind := by
  unfold beforeFound
  split
  · rename_i inside behind heq
    exact ⟨behind, append_of_breakWhere? heq⟩
  · exact ⟨[], (List.append_nil _).symm⟩

theorem startsMarkup_of_ne {c : Char} (h : c ≠ '<') (rest : Text) :
    Piece.startsMarkup (c :: rest) = false := by
  unfold Piece.startsMarkup
  split
  · rename_i heq
    exact absurd (List.cons.inj heq).1 h
  · rfl

theorem beforeFound_startsMarkup {before : Text} (h : '<' ∉ before) (behind : Text) :
    beforeFound Piece.startsMarkup (before ++ behind) =
      before ++ beforeFound Piece.startsMarkup behind := by
  induction before with
  | nil => rfl
  | cons c before ih =>
    rw [List.mem_cons, not_or] at h
    rw [List.cons_append, beforeFound_cons (startsMarkup_of_ne (Ne.symm h.1) _), ih h.2]
    rfl

theorem textStop_spec {start rounds : Nat} {left : Text} (h : position.PointsAt source left)
    (hle : start ≤ position.offset) (hfirst : start = position.offset → left.head? ≠ some '<')
    (hrounds : left.length < rounds) : textStop source start rounds position.offset =
      .ok (position.offset + byteLength (beforeFound Piece.startsMarkup left)) := by
  induction rounds generalizing position left with
  | zero => omega
  | succ rounds ih =>
    have hend := h.offset_add
    rw [textStop, sliceFrom_position h, ok_bind, find?]
    by_cases hmem : '<' ∈ left
    · obtain ⟨seen, behind, rfl, hseen⟩ := List.eq_append_cons_of_mem hmem
      have hsplit : split? "<" (seen ++ '<' :: behind) = some (seen, behind) :=
        split?_of_not_mem hseen behind
      have hcandidate : start < position.offset + byteLength seen := by
        cases seen with
        | nil =>
          have hne : start ≠ position.offset := fun heq => hfirst heq rfl
          rw [byteLength_nil]
          omega
        | cons c seen =>
          have := c.utf8Size_pos
          rw [byteLength_cons]
          omega
      have hseenAt : (position.advance seen).PointsAt source ('<' :: behind) := h.advance
      have hmarkup : startsMarkup source (position.offset + byteLength seen) =
          .ok (Piece.startsMarkup ('<' :: behind)) := startsMarkup_spec hseenAt
      rw [beforeFound_startsMarkup hseen, byteLength_append]
      simp only [hsplit, Option.map_some, if_pos hcandidate, hmarkup, ok_bind]
      cases hstarts : Piece.startsMarkup ('<' :: behind) with
      | true =>
        rw [beforeFound_of_pos hstarts]
        rfl
      | false =>
        have hlater : ((position.advance seen).advance ['<']).PointsAt source behind := hseenAt.advance
        have hless : behind.length < rounds := by
          rw [List.length_append, List.length_cons] at hrounds
          omega
        have hbehind : textStop source start rounds (position.offset + byteLength seen + 1) =
            .ok (position.offset + byteLength seen + 1 +
              byteLength (beforeFound Piece.startsMarkup behind)) :=
          ih hlater (by simp only [Position.advance]; omega)
            (fun heq => absurd heq (by simp only [Position.advance]; omega)) hless
        have hmark : '<'.utf8Size = 1 := rfl
        rw [beforeFound_cons hstarts, byteLength_cons, hmark]
        simp only [Bool.false_eq_true, if_false, hbehind]
        congr 1
        omega
    · have hsplit : split? "<" left = none := split?_eq_none_of_not_mem hmem
      have hall := beforeFound_startsMarkup hmem []
      rw [List.append_nil, show beforeFound Piece.startsMarkup [] = [] from rfl, List.append_nil] at hall
      rw [hsplit, hall, hend]
      rfl

theorem textAt_spec {c : Char} {rest inside behind : Text} (h : position.PointsAt source (c :: rest))
    (hrest : rest = inside ++ behind) :
    textAt source position.offset (position.offset + byteLength (c :: inside)) =
      .ok (.ok (reach position.offset (c :: rest)
        ⟨some (.leaf (.text (c :: inside))), inside.length⟩)) := by
  subst hrest
  have hslice : slice source position.offset (position.offset + byteLength (c :: inside)) =
      .ok (c :: inside) := slice_position [] behind h rfl rfl
  rw [textAt, hslice, ok_bind, reach, List.take_succ_cons, List.take_left]
  rfl

/-- Text where no markup starts. -/
theorem plainTextAt_spec {c : Char} {rest : Text} (h : position.PointsAt source (c :: rest)) :
    (do
      let stop ← textStop source position.offset (byteLength source + 1) position.offset
      textAt source position.offset stop) =
      .ok (.ok (reach position.offset (c :: rest) (Piece.text c rest))) := by
  have hend := h.offset_add
  have hlength := length_le_byteLength (c :: rest)
  obtain ⟨behind, hrest⟩ := exists_beforeFound Piece.startsMarkup rest
  have hstop : textStop source position.offset (byteLength source + 1) position.offset =
      .ok (position.offset + byteLength (c :: beforeFound Piece.startsMarkup rest)) := by
    by_cases hc : c = '<'
    · -- The search passes over the first character.
      subst hc
      have hrestAt : (position.advance ['<']).PointsAt source rest := h.advance
      have hsplit : split? "<" ('<' :: rest) = some ([], rest) :=
        split?_of_not_mem (List.not_mem_nil) rest
      have hlater : textStop source position.offset (byteLength source) (position.offset + 1) =
          .ok (position.offset + 1 + byteLength (beforeFound Piece.startsMarkup rest)) := by
        apply textStop_spec hrestAt (Nat.le_succ _) (fun heq => absurd heq (Nat.succ_ne_self _).symm)
        rw [List.length_cons] at hlength
        omega
      rw [textStop, sliceFrom_position h, ok_bind, find?, hsplit]
      simp only [Option.map_some, byteLength_nil, Nat.add_zero, Nat.lt_irrefl, if_false, pure_eq_ok,
        ok_bind, Bool.false_eq_true, hlater, byteLength_cons, show '<'.utf8Size = 1 from rfl,
        Nat.add_assoc]
    · rw [← beforeFound_cons (startsMarkup_of_ne hc rest)]
      exact textStop_spec h (Nat.le_refl _) (fun _ => by simpa using hc) (by omega)
  rw [hstop, ok_bind, textAt_spec h hrest]
  rfl

theorem rawTextAt_spec {c : Char} {rest name : Text} (h : position.PointsAt source (c :: rest))
    (hname : lower name = name) (hcloses : beginsNoCase ("</" ++ name) (c :: rest) = false) :
    (do
      let stop ← rawTextStop source position.offset name
      textAt source position.offset stop) =
      .ok (.ok (reach position.offset (c :: rest)
        ⟨some (.leaf (.text (c :: beforeFound (beginsNoCase ("</" ++ name)) rest))),
          (beforeFound (beginsNoCase ("</" ++ name)) rest).length⟩)) := by
  have hend := h.offset_add
  have hclosing : lower ("</" ++ name) = ("</" ++ name : Text) := by
    rw [lower_append, hname]
    rfl
  obtain ⟨behind, hrest⟩ := exists_beforeFound (beginsNoCase ("</" ++ name)) rest
  have hstop : rawTextStop source position.offset name =
      .ok (position.offset + byteLength (c :: beforeFound (beginsNoCase ("</" ++ name)) rest)) := by
    rw [rawTextStop, sliceFrom_position h, ok_bind, find?_lower hclosing, ← beforeFound_cons hcloses,
      beforeFound]
    cases breakWhere? (beginsNoCase ("</" ++ name)) (c :: rest) with
    | none => exact congrArg Except.ok hend.symm
    | some found => rfl
  rw [hstop, ok_bind, textAt_spec h hrest]

/-! ## Whole pieces -/

theorem isXmlDeclaration_spec (code : Text) :
    isXmlDeclaration code = .ok (Piece.isXmlDeclaration code) := by
  rw [isXmlDeclaration, beginsAs_eq, Piece.isXmlDeclaration]
  cases hbegins : beginsNoCase "xml" code with
  | false => rfl
  | true =>
    rw [← beginsAs_eq, beginsAs, Option.any_eq_true] at hbegins
    obtain ⟨⟨front, behind⟩, hcut, hsame⟩ := hbegins
    obtain ⟨rfl, hwidth⟩ := cut?_eq_some_iff.mp hcut
    have hlength : front.length = 3 := by
      have := congrArg List.length (beq_iff_eq.mp hsame)
      rwa [length_lower, length_lower] at this
    have hslice : sliceFrom (front ++ behind) 3 = .ok behind := sliceFrom_eq front rfl hwidth
    rw [if_pos rfl, hslice, ok_bind, ← hlength, List.getElem?_append_right (Nat.le_refl _),
      Nat.sub_self, List.head?_eq_getElem?]
    rfl

theorem markupAt_spec {c : Char} {rest : Text} (h : position.PointsAt source (c :: rest)) :
    markupAt source position.offset =
      .ok ((Piece.first c rest).map (reach position.offset (c :: rest))) := by
  rw [markupAt, sliceFrom_position h, ok_bind]
  split
  · rename_i hbegins
    obtain ⟨body, hbody⟩ := begins_iff.mp hbegins
    have hrest : '<' :: '!' :: '-' :: '-' :: body = c :: rest := hbody
    cases hrest
    exact upTo_spec ['<', '!', '-', '-'] h rfl _ fun _ => rfl
  rename_i hcomment
  split
  · rename_i hbegins
    obtain ⟨body, hbody⟩ := begins_iff.mp hbegins
    have hrest : '<' :: '?' :: body = c :: rest := hbody
    cases hrest
    refine upTo_spec ['<', '?'] h rfl _ fun inside => ?_
    rw [isXmlDeclaration_spec]
    rfl
  rename_i hserver
  split
  · rename_i hbegins
    obtain ⟨body, hbody⟩ := begins_iff.mp hbegins
    have hrest : '<' :: '!' :: body = c :: rest := hbody
    cases hrest
    rw [Piece.first.eq_3]
    · exact upTo_spec ['<', '!'] h rfl _ fun _ => rfl
    · rintro later rfl
      exact hcomment (begins_iff.mpr ⟨later, rfl⟩)
  rename_i hbang
  split
  · rename_i hbegins
    obtain ⟨body, hbody⟩ := begins_iff.mp hbegins
    have hrest : '<' :: '/' :: body = c :: rest := hbody
    cases hrest
    refine tagAt_spec ['/'] h fun inside hinside => ?_
    obtain ⟨⟨behind, hwhole⟩, -⟩ := tagText_of_tagInside? (by simp) hinside
    obtain ⟨more, rfl⟩ := head_of_tag (by decide) hwhole
    exact ⟨more, rfl, rfl⟩
  rename_i hslash
  have hopens : opensTag source position.offset (c :: rest) = .ok (Piece.startsMarkup (c :: rest)) := by
    unfold opensTag
    split
    · rename_i hbegins
      obtain ⟨body, hbody⟩ := begins_iff.mp hbegins
      have hrest : '<' :: body = c :: rest := hbody
      cases hrest
      exact startsMarkup_spec h
    · rename_i hbegins
      have hc : c ≠ '<' := by
        rintro rfl
        exact hbegins (begins_iff.mpr ⟨rest, rfl⟩)
      rw [startsMarkup_of_ne hc]
      rfl
  have hfirst : Piece.first c rest = if Piece.startsMarkup (c :: rest) then
      Piece.tag rest (fun inside => .openTag (.read inside)) else .ok (Piece.text c rest) := by
    rw [Piece.first.eq_5]
    · rintro body rfl rfl
      exact hcomment (begins_iff.mpr ⟨body, rfl⟩)
    · rintro body rfl rfl
      exact hserver (begins_iff.mpr ⟨body, rfl⟩)
    · rintro body rfl rfl
      exact hbang (begins_iff.mpr ⟨body, rfl⟩)
    · rintro body rfl rfl
      exact hslash (begins_iff.mpr ⟨body, rfl⟩)
  rw [hopens, ok_bind, hfirst]
  cases hmarkup : Piece.startsMarkup (c :: rest) with
  | false => exact plainTextAt_spec h
  | true =>
    obtain ⟨d, body, rfl, rfl, hd⟩ := letter_of_startsMarkup hmarkup
      (fun body hc hrest => hbang (begins_iff.mpr ⟨body, by rw [hc, hrest]; rfl⟩))
      (fun body hc hrest => hserver (begins_iff.mpr ⟨body, by rw [hc, hrest]; rfl⟩))
      (fun body hc hrest => hslash (begins_iff.mpr ⟨body, by rw [hc, hrest]; rfl⟩))
    refine tagAt_spec [] h fun inside hinside => ⟨inside, rfl, ?_⟩
    obtain ⟨⟨behind, hwhole⟩, -⟩ := tagText_of_tagInside? (by simp) hinside
    obtain ⟨more, rfl⟩ := head_of_tag (ne_of_isTagNamePart (isTagNamePart_of_isAlpha hd)).2.2 hwhole
    rw [openTag_spec (by simpa using hd)]
    rfl

theorem pieceAt_spec {c : Char} {rest : Text} {rawTextOf : Option Text}
    (h : position.PointsAt source (c :: rest)) (hraw : ∀ name ∈ rawTextOf, lower name = name) :
    pieceAt source position.offset rawTextOf =
      .ok ((Reader.piece ⟨c :: rest, position, rawTextOf⟩ c rest).map
        (reach position.offset (c :: rest))) := by
  cases rawTextOf with
  | none => exact markupAt_spec h
  | some name =>
    rw [pieceAt, sliceFrom_position h, ok_bind, beginsAs_eq, Reader.piece_some]
    cases hcloses : beginsNoCase ("</" ++ name) (c :: rest) with
    | true =>
      have hnone : Piece.rawText? name c rest = none := if_pos hcloses
      rw [hnone]
      exact markupAt_spec h
    | false =>
      have hsome : Piece.rawText? name c rest =
          some ⟨some (.leaf (.text (c :: beforeFound (beginsNoCase ("</" ++ name)) rest))),
            (beforeFound (beginsNoCase ("</" ++ name)) rest).length⟩ := if_neg (by rw [hcloses]; simp)
      rw [hsome]
      exact rawTextAt_spec h (hraw name rfl) hcloses

end

/-! ## One token after the other -/

/-- The reader stands in the source where it says. -/
structure ReadsIn (source : Text) (reader : Reader) : Prop where
  place : reader.position.PointsAt source reader.rest
  raw : ∀ name ∈ reader.rawTextOf, lower name = name

def cursorOf (reader : Reader) : Cursor := ⟨reader.position.offset, reader.rawTextOf⟩

theorem readsIn_ofSource (source : Text) : ReadsIn source (.ofSource source) := by
  refine ⟨?_, by simp [Reader.ofSource]⟩
  have := Position.pointsAt_start source
  rwa [List.append_nil] at this

theorem lower_of_isRawText {name : Text} (h : isRawText name = true) : lower name = name := by
  have hall : ∀ name ∈ rawTextNames, lower name = name := by decide
  exact hall name (List.contains_iff_mem.mp h)

theorem lower_of_rawTextAfter (token : Option Token) :
    ∀ name ∈ Reader.rawTextAfter token, lower name = name := by
  intro name hname
  unfold Reader.rawTextAfter at hname
  split at hname
  · rename_i tag
    split at hname
    · rename_i hraw
      cases hname
      exact lower_of_isRawText (Bool.and_eq_true_iff.mp hraw).2
    · cases hname
  · cases hname

section

variable {source : Text} {c : Char} {rest : Text} {position : Position} {raw : Option Text}
  (h : ReadsIn source ⟨c :: rest, position, raw⟩) (piece : Piece)

include h

theorem readsIn_behind : ReadsIn source (Reader.behind ⟨c :: rest, position, raw⟩ c rest piece) := by
  have hplace : position.PointsAt source (c :: rest.take piece.width ++ rest.drop piece.width) := by
    rw [List.cons_append, List.take_append_drop]
    exact h.place
  exact ⟨hplace.advance, lower_of_rawTextAfter piece.token⟩

end

theorem nextFrom_spec {source : Text} {reader : Reader} (h : ReadsIn source reader) {rounds : Nat}
    (hrounds : reader.rest.length < rounds) :
    nextFrom source (lineStarts source) rounds (cursorOf reader) =
      .ok (reader.next.1.map fun found => (found, cursorOf reader.next.2)) ∧
      ReadsIn source reader.next.2 := by
  induction rounds generalizing reader with
  | zero => omega
  | succ rounds ih =>
    obtain ⟨rest, position, raw⟩ := reader
    cases rest with
    | nil =>
      have hend : position.offset + 0 = byteLength source := h.place.offset_add
      rw [Reader.next_nil]
      exact ⟨if_pos (Nat.le_of_eq hend.symm), h⟩
    | cons c rest =>
      have hend : position.offset + byteLength (c :: rest) = byteLength source := h.place.offset_add
      have hpositive := c.utf8Size_pos
      have hline : (⟨position.offset, lineAt (lineStarts source) position.offset⟩ : Position) = position := by
        rw [Position.IsIn.lineAt_eq ⟨c, rest, h.place⟩]
      have hpiece := pieceAt_spec h.place h.raw
      rw [byteLength_cons] at hend
      rw [Reader.next_cons, nextFrom, if_neg (by simp only [cursorOf]; omega)]
      simp only [cursorOf, hpiece, ok_bind, hline]
      cases hfound : Reader.piece ⟨c :: rest, position, raw⟩ c rest with
      | error cause => exact ⟨rfl, h.place, by simp⟩
      | ok piece =>
        have hbehind := readsIn_behind h piece
        have hreach : reach position.offset (c :: rest) piece = (piece.token,
            (Reader.behind ⟨c :: rest, position, raw⟩ c rest piece).position.offset) := rfl
        simp only [Except.map, hreach]
        cases htoken : piece.token with
        | some token =>
          refine ⟨?_, hbehind⟩
          simp only [Reader.behind, htoken]
          rfl
        | none =>
          have hraw : (Reader.behind ⟨c :: rest, position, raw⟩ c rest piece).rawTextOf = none := by
            rw [Reader.behind, htoken]
            rfl
          have hless : (Reader.behind ⟨c :: rest, position, raw⟩ c rest piece).rest.length < rounds := by
            simp only [Reader.behind, List.length_drop]
            simp only [List.length_cons] at hrounds
            omega
          have hlater := ih hbehind hless
          rw [cursorOf, hraw] at hlater
          exact hlater

theorem next_spec {source : Text} {reader : Reader} (h : ReadsIn source reader) :
    next source (cursorOf reader) =
      .ok (reader.next.1.map fun found => (found, cursorOf reader.next.2)) ∧
      ReadsIn source reader.next.2 := by
  have hlength := length_le_byteLength reader.rest
  have hend := h.place.offset_add
  exact nextFrom_spec h (by omega)

end Guarded

end Phrasebook
