import Phrasebook.Proofs.Guarded.Escape
import Phrasebook.Proofs.Guarded.Lexeme
import Phrasebook.Proofs.Lexeme.Placed
import Phrasebook.Proofs.Table.Place
import Phrasebook.Table.GoMap

/-!
# Tables by numbers

Here an entry is two numbers in the list of the spans, and what stands around it is looked up by number.
-/

namespace Phrasebook

open Text

namespace Guarded

open Table (Constant)

/-! ## Entries -/

def kindAt (spans : List Span) (number : Nat) : Guarded Lexeme.Kind := do
  let span ← item spans number
  return span.kind

/-- The numbers of the spans that are no comments. -/
def codeNumbers (spans : List Span) : List Nat :=
  (spans.zipIdx.filter fun (span, _) => !span.kind.isComment).map Prod.snd

/-- The key and the value of the entry whose key is at `place` of the code. -/
def entryAt (spans : List Span) (code : List Nat) : Nat × Nat → Guarded (Option (Nat × Nat))
  | (key, place) => match code[place + 1]? with
  | none => return none
  | some colon => do
    if (← kindAt spans colon) ≠ .colon then return none
    if !Table.isKey (← kindAt spans key) then return none
    if place = 0 then return none
    let previous ← minus place 1
    let before ← item code previous
    if !Table.opensEntry (← kindAt spans before) then return none
    match code[place + 2]?, code[place + 3]? with
    | some value, some behind => do
      let kind ← kindAt spans behind
      return if Table.closesEntry kind then some (key, value) else none
    | _, _ => return none

def entries (spans : List Span) : Guarded (List (Nat × Nat)) := do
  let code := codeNumbers spans
  let found ← code.zipIdx.mapM (entryAt spans code)
  return found.filterMap id

/-! ## Comments -/

/-- What a span says if it is a comment on the line. -/
def commentOn (source : Text) (line : Nat) : Option Span → Guarded (Option Text)
  | none => return none
  | some candidate =>
    if candidate.kind.isComment && candidate.line == line then do
      let comment ← body source candidate
      return some comment
    else return none

def trailingComment (source : Text) (spans : List Span) (value : Nat) : Guarded (Option Text) := do
  let span ← item spans value
  let line ← lastLine source span
  match spans[value + 1]? with
  | none => return none
  | some next => commentOn source line spans[if next.kind = .comma then value + 2 else value + 1]?

/-- Whether the candidate before the span `number` begins on a line where code ends. -/
def trailsCode (source : Text) (spans : List Span) (number : Nat) (candidate : Span) :
    Guarded Bool :=
  if 2 ≤ number then do
    let previous ← minus number 2
    let span ← item spans previous
    if span.kind.isComment then return false
    let line ← lastLine source span
    return line == candidate.line
  else return false

/-- The comments above the span `number` that lead to `line`, the nearest first, in at most so many
rounds. -/
def commentsAbove (source : Text) (spans : List Span) : Nat → Nat → Nat → Guarded (List Text)
  | 0, _, _ => .error .endless
  | rounds + 1, number, line =>
    if number = 0 then return []
    else do
      let above ← minus number 1
      let candidate ← item spans above
      if !candidate.kind.isComment then return []
      if (← lastLine source candidate) + 1 ≠ line then return []
      if ← trailsCode source spans number candidate then return []
      let comment ← body source candidate
      let others ← commentsAbove source spans rounds above candidate.line
      return comment :: others

def leadingComments (source : Text) (spans : List Span) (key : Nat) : Guarded (List Text) := do
  let span ← item spans key
  let found ← commentsAbove source spans (key + 1) key span.line
  return found.reverse

/-! ## Constants -/

/-- The literal that an equals sign and the span behind it give a name. -/
def initialiserAt (source : Text) : Option Span → Option Span → Guarded (Option Text)
  | some assign, some literal => do
    if assign.kind ≠ .punctuation then return none
    if (← text source assign) ≠ "=" then return none
    if literal.kind = .quoted .double ∨ literal.kind = .quoted .backtick then
      let value ← body source literal
      return some value
    else return none
  | _, _ => return none

/-- The specification at the beginning of `code`, and how many spans it takes. -/
def constantAt (source : Text) (code : List Span) : Guarded (Option (Constant × Nat)) :=
  match code.head?, code[1]? with
  | some name, some second =>
    if name.kind = .identifier then do
      let next := if second.kind = .identifier then 2 else 1
      match ← initialiserAt source code[next]? code[next + 1]? with
      | some value =>
        let name ← text source name
        return some (⟨name, value⟩, next + 2)
      | none => return none
    else return none
  | _, _ => return none

/-- The constants of a group from `number` on, and where the group ends. -/
def groupFrom (source : Text) (code : List Span) : Nat → Nat → Guarded (List Constant × Nat)
  | 0, _ => .error .endless
  | rounds + 1, number =>
    if number < code.length then do
      let span ← item code number
      if span.kind = .closing .round then return ([], number)
      let rest ← itemsFrom code number
      match ← constantAt source rest with
      | some (constant, width) =>
        let (others, stop) ← groupFrom source code rounds (number + width)
        return (constant :: others, stop)
      | none => groupFrom source code rounds (number + 1)
    else return ([], number)

def isConst (source : Text) (span : Span) : Guarded Bool :=
  if span.kind = .identifier then do
    let word ← text source span
    return word == "const"
  else return false

/-- The constants that are declared from `number` on. -/
def constantsFrom (source : Text) (code : List Span) : Nat → Nat → Guarded (List Constant)
  | 0, _ => .error .endless
  | rounds + 1, number =>
    if number < code.length then do
      let span ← item code number
      if ← isConst source span then
        if code[number + 1]?.any fun next => next.kind = .opening .round then
          let (declared, stop) ← groupFrom source code (code.length + 1) (number + 2)
          let others ← constantsFrom source code rounds stop
          return declared ++ others
        else
          let rest ← itemsFrom code (number + 1)
          match ← constantAt source rest with
          | some (constant, width) =>
            let others ← constantsFrom source code rounds (number + 1 + width)
            return constant :: others
          | none => constantsFrom source code rounds (number + 1)
      else constantsFrom source code rounds (number + 1)
    else return []

def constants (source : Text) (spans : List Span) : Guarded (List Constant) :=
  let code := spans.filter fun span => !span.kind.isComment
  constantsFrom source code (code.length + 1) 0

/-! ## Phrases -/

/-- The spans of a table whose brackets nest. Brackets are told by their kinds. -/
def readTable (source : Text) : Guarded (Except Fault (List Span)) := do
  let outcome ← tokenize source
  return do
    let spans ← outcome
    Lexeme.checkBalance (spans.map fun span => ⟨span.kind, [], ⟨span.start, span.line⟩⟩)
    return spans

def plainPhrase? (source : Text) (spans : List Span) (entry : Nat × Nat) :
    Guarded (Option Phrase) := do
  let key ← item spans entry.1
  let value ← item spans entry.2
  if key.kind = .quoted .double ∧ value.kind = .quoted .double then
    let literal ← body source value
    let decoded ← decode .cFamily literal
    let hint ← trailingComment source spans entry.2
    let name ← body source key
    return some (.keyed name decoded hint key.line)
  else return none

def key? (source : Text) (constants : List Constant) (key : Span) : Guarded (Option Text) :=
  match key.kind with
  | .quoted .double | .quoted .backtick => do
    let name ← body source key
    return some name
  | .identifier => do
    let name ← text source key
    return Constant.value? constants name
  | _ => return none

def value? (source : Text) (value : Span) : Guarded (Option Text) :=
  match value.kind with
  | .quoted .double => do
    let literal ← body source value
    let decoded ← decode .go literal
    return some decoded
  | .quoted .backtick => do
    let literal ← body source value
    return some (literal.filter (· ≠ '\r'))
  | _ => return none

def goPhrase? (source : Text) (spans : List Span) (constants : List Constant) (entry : Nat × Nat) :
    Guarded (Option Phrase) := do
  let key ← item spans entry.1
  let value ← item spans entry.2
  match ← key? source constants key with
  | none => return none
  | some name =>
    match ← value? source value with
    | none => return none
    | some decoded =>
      let above ← leadingComments source spans entry.1
      let behind ← trailingComment source spans entry.2
      return some (.keyed name decoded (Phrase.hintOfLines (above ++ behind.toList)) key.line)

def plainPhrases (source : Text) : Guarded (Except Fault (List Phrase)) := do
  unlessFault (← readTable source) fun spans => do
    let entries ← entries spans
    let found ← entries.mapM (plainPhrase? source spans)
    return .ok (found.filterMap id)

def goPhrases (source : Text) : Guarded (Except Fault (List Phrase)) := do
  unlessFault (← readTable source) fun spans => do
    let constants ← constants source spans
    let entries ← entries spans
    let found ← entries.mapM (goPhrase? source spans constants)
    return .ok (found.filterMap id)

/-! ## What stands around a lexeme -/

/-- The lexeme stands among these where it says. -/
def StandsIn (lexemes : List Lexeme) (placed : Lexeme.Placed) : Prop :=
  lexemes = placed.before.reverse ++ placed.lexeme :: placed.behind

theorem standsIn_of_mem_placed {lexemes : List Lexeme} {placed : Lexeme.Placed}
    (h : placed ∈ Lexeme.placed lexemes) : StandsIn lexemes placed :=
  Lexeme.mem_placed_iff.mp h

theorem standsIn_of_mem_code {lexemes : List Lexeme} {placed : Lexeme.Placed}
    (h : placed ∈ Table.code lexemes) : StandsIn lexemes placed :=
  standsIn_of_mem_placed (List.mem_filter.mp h).1

section

variable {lexemes : List Lexeme} {placed : Lexeme.Placed} (h : StandsIn lexemes placed)

include h

theorem StandsIn.mem : placed.lexeme ∈ lexemes := by
  rw [h]
  simp

theorem item_index : item (lexemes.map Lexeme.span) placed.index = .ok placed.lexeme.span := by
  apply item_eq
  rw [h]
  simp [Lexeme.Placed.index]

theorem kindAt_index : kindAt (lexemes.map Lexeme.span) placed.index = .ok placed.lexeme.kind := by
  rw [kindAt, item_index h]
  rfl

end

/-! ## Entries by number -/

theorem codeNumbers_spec (lexemes : List Lexeme) :
    codeNumbers (lexemes.map Lexeme.span) = (Table.code lexemes).map Lexeme.Placed.index := by
  have hfrom : ∀ before : List Lexeme,
      (((lexemes.map Lexeme.span).zipIdx before.length).filter
        fun (span, _) => !span.kind.isComment).map Prod.snd =
        ((Lexeme.placedAfter before lexemes).filter fun placed => !placed.lexeme.isComment).map
          Lexeme.Placed.index := by
    induction lexemes with
    | nil => exact fun _ => rfl
    | cons lexeme behind ih =>
      intro before
      rw [List.map_cons, List.zipIdx_cons, Lexeme.placedAfter, List.filter_cons, List.filter_cons]
      have hsame : lexeme.span.kind.isComment = lexeme.isComment := rfl
      simp only [hsame]
      split
      · rw [List.map_cons, List.map_cons, ← ih (lexeme :: before)]
        rfl
      · exact ih (lexeme :: before)
  exact hfrom []

theorem entryAt_zero {lexemes : List Lexeme} {code : List Lexeme.Placed}
    (h : ∀ placed ∈ code, StandsIn lexemes placed) {key : Lexeme.Placed}
    (hkey : StandsIn lexemes key) :
    entryAt (lexemes.map Lexeme.span) (code.map Lexeme.Placed.index) (key.index, 0) = .ok none := by
  rw [entryAt, List.getElem?_map]
  cases hcolon : code[0 + 1]? with
  | none => rfl
  | some colon =>
    simp only [Option.map_some, kindAt_index (h _ (List.mem_of_getElem? hcolon)), kindAt_index hkey, ok_bind]
    split
    · rfl
    · split <;> rfl

theorem entryAt_spec {lexemes : List Lexeme} (front : List Lexeme.Placed)
    {before key : Lexeme.Placed} {rest : List Lexeme.Placed}
    (h : ∀ placed ∈ front ++ before :: key :: rest, StandsIn lexemes placed) :
    entryAt (lexemes.map Lexeme.span) ((front ++ before :: key :: rest).map Lexeme.Placed.index)
        (key.index, front.length + 1) =
      .ok ((Table.Entry.atFront? (before :: key :: rest)).map Table.Entry.numbers) := by
  have hat : ∀ n, ((front ++ before :: key :: rest).map Lexeme.Placed.index)[front.length + n]? =
      (before :: key :: rest)[n]?.map Lexeme.Placed.index := by
    intro n
    rw [List.getElem?_map, List.getElem?_append_right (Nat.le_add_right ..), Nat.add_sub_cancel_left]
  have hkind : ∀ placed ∈ before :: key :: rest,
      kindAt (lexemes.map Lexeme.span) placed.index = .ok placed.lexeme.kind :=
    fun placed hmem => kindAt_index (h placed (List.mem_append_right front hmem))
  have hprevious : item ((front ++ before :: key :: rest).map Lexeme.Placed.index) front.length =
      .ok before.index := item_eq (hat 0)
  simp only [List.forall_mem_cons] at hkind
  obtain ⟨hbefore, hkey, hrest⟩ := hkind
  simp only [entryAt, Nat.add_assoc, hat, List.getElem?_cons_succ, hkey, hbefore, hprevious,
    minus_eq (Nat.le_add_left 1 front.length), Nat.add_sub_cancel, ok_bind, Nat.reduceAdd]
  cases rest with
  | nil => rfl
  | cons colon rest =>
    obtain ⟨hcolon, hrest⟩ := List.forall_mem_cons.mp hrest
    simp only [List.getElem?_cons_zero, List.getElem?_cons_succ, Option.map_some, hcolon, ok_bind]
    match rest, hrest with
    | [], _ | [_], _ =>
      -- The code ends before the entry does.
      simp only [List.getElem?_nil, List.getElem?_cons_zero, List.getElem?_cons_succ, Option.map_none,
        Option.map_some]
      repeat' split
      all_goals rfl
    | value :: behind :: later, hrest =>
      simp only [List.forall_mem_cons] at hrest
      simp only [List.getElem?_cons_zero, List.getElem?_cons_succ, Option.map_some, hrest, ok_bind,
        Table.Entry.atFront?]
      by_cases hcolon : colon.lexeme.kind = .colon
      · by_cases hkey : Table.isKey key.lexeme.kind
        · by_cases hopens : Table.opensEntry before.lexeme.kind
          · by_cases hcloses : Table.closesEntry behind.lexeme.kind <;>
              simp [hcolon, hkey, hopens, hcloses, Table.Entry.numbers]
          · simp [hcolon, hkey, hopens]
        · simp [hcolon, hkey]
      · simp [hcolon]

theorem entries_spec (lexemes : List Lexeme) :
    entries (lexemes.map Lexeme.span) = .ok ((Table.entries lexemes).map Table.Entry.numbers) := by
  have hfrom : ∀ (front : List Lexeme.Placed) (before : Lexeme.Placed) (rest : List Lexeme.Placed),
      (∀ placed ∈ front ++ before :: rest, StandsIn lexemes placed) → ∃ found,
        ((rest.map Lexeme.Placed.index).zipIdx (front.length + 1)).mapM
            (entryAt (lexemes.map Lexeme.span)
              ((front ++ before :: rest).map Lexeme.Placed.index)) = .ok found ∧
          found.filterMap id = (Table.entriesOfCode (before :: rest)).map Table.Entry.numbers := by
    intro front before rest
    induction rest generalizing front before with
    | nil => exact fun _ => ⟨[], rfl, rfl⟩
    | cons key rest ih =>
      intro h
      have hsame : front ++ before :: key :: rest = (front ++ [before]) ++ key :: rest := by simp
      obtain ⟨found, hfound, hentries⟩ := ih (front ++ [before]) key (by rwa [← hsame])
      rw [← hsame, List.length_append, List.length_singleton] at hfound
      refine ⟨(Table.Entry.atFront? (before :: key :: rest)).map Table.Entry.numbers :: found, ?_, ?_⟩
      · rw [List.map_cons, List.zipIdx_cons, List.mapM_cons, entryAt_spec front h, ok_bind, hfound]
        rfl
      · rw [Table.entriesOfCode, List.map_append, ← hentries]
        cases Table.Entry.atFront? (before :: key :: rest) <;> rfl
  have hcode : ∀ placed ∈ Table.code lexemes, StandsIn lexemes placed := fun _ => standsIn_of_mem_code
  rw [entries, codeNumbers_spec, Table.entries]
  cases hshape : Table.code lexemes with
  | nil => rfl
  | cons first rest =>
    rw [hshape] at hcode
    obtain ⟨found, hfound, hentries⟩ := hfrom [] first rest hcode
    have hfirst := entryAt_zero hcode (hcode first List.mem_cons_self)
    rw [List.map_cons, List.zipIdx_cons, List.mapM_cons]
    simp only [List.map_cons, List.nil_append, List.length_nil] at hfirst hfound
    rw [hfirst, ok_bind, hfound, ok_bind]
    exact congrArg Except.ok hentries

/-! ## Comments by number -/

theorem commentOn_spec {source : Text} {candidate : Option Lexeme}
    (h : ∀ lexeme ∈ candidate, InSource source lexeme) (line : Nat) :
    commentOn source line (candidate.map Lexeme.span) =
      .ok ((candidate.filter fun c => c.isComment && c.line == line).map Lexeme.body) := by
  cases candidate with
  | none => rfl
  | some lexeme =>
    have hkind : lexeme.span.kind.isComment = lexeme.isComment := rfl
    have hline : lexeme.span.line = lexeme.line := rfl
    rw [Option.map_some, commentOn, Option.filter_some, hkind, hline, body_spec (h lexeme rfl)]
    split <;> rfl

section

variable {source : Text} {lexemes : List Lexeme} (hin : ∀ lexeme ∈ lexemes, InSource source lexeme)

include hin

theorem trailingComment_spec {value : Lexeme.Placed} (h : StandsIn lexemes value) :
    trailingComment source (lexemes.map Lexeme.span) value.index = .ok value.trailingComment := by
  have hat : ∀ n, (lexemes.map Lexeme.span)[value.index + (n + 1)]? =
      value.behind[n]?.map Lexeme.span := by
    intro n
    have hindex : value.before.reverse.length = value.index := List.length_reverse
    rw [List.getElem?_map, h, ← hindex, List.getElem?_append_right (Nat.le_add_right ..),
      Nat.add_sub_cancel_left, List.getElem?_cons_succ]
  have hbehind : ∀ lexeme ∈ value.behind, InSource source lexeme := by
    intro lexeme hmem
    apply hin
    rw [h]
    simp [hmem]
  rw [trailingComment, item_index h, ok_bind, lastLine_spec (hin _ h.mem), ok_bind, hat 0]
  unfold Lexeme.Placed.trailingComment
  cases hshape : value.behind with
  | nil => rfl
  | cons next others =>
    rw [hshape] at hbehind hat
    simp only [List.getElem?_cons_zero, Option.map_some]
    have hkind : next.span.kind = next.kind := rfl
    have hfirst := hat 0
    have hsecond := hat 1
    rw [hkind]
    split
    · rw [hsecond, List.getElem?_cons_succ, ← List.head?_eq_getElem?]
      exact commentOn_spec (fun lexeme hmem => hbehind lexeme (.tail _ (List.mem_of_mem_head? hmem))) _
    · rw [hfirst, ← List.head?_eq_getElem?]
      exact commentOn_spec (fun lexeme hmem => hbehind lexeme (List.mem_of_mem_head? hmem)) _

end

section

variable {source : Text} {lexemes before behind : List Lexeme}
  (hin : ∀ lexeme ∈ lexemes, InSource source lexeme)

include hin

theorem trailsCode_spec {candidate : Lexeme}
    (h : lexemes = before.reverse ++ candidate :: behind) :
    trailsCode source (lexemes.map Lexeme.span) (before.length + 1) candidate.span =
      .ok (Lexeme.sharesLineWithCode candidate before) := by
  rw [trailsCode]
  cases before with
  | nil => rfl
  | cons previous before =>
    have hprevious : item (lexemes.map Lexeme.span) before.length = .ok previous.span := by
      apply item_eq
      simp [h]
    have hline := lastLine_spec (hin previous (by simp [h]))
    have htwo : minus (before.length + 1 + 1) 2 = .ok before.length := minus_eq (by omega)
    have hkind : previous.span.kind.isComment = previous.isComment := rfl
    rw [if_pos (by simp)]
    simp only [List.length_cons, htwo, hprevious, hline, hkind, ok_bind,
      Lexeme.sharesLineWithCode, List.head?_cons, Option.any_some]
    split
    · rename_i hcomment
      rw [hcomment]
      rfl
    · rename_i hcode
      rw [Bool.not_eq_true] at hcode
      rw [hcode]
      rfl

theorem commentsAbove_spec (h : lexemes = before.reverse ++ behind) {rounds : Nat}
    (hrounds : before.length < rounds) (line : Nat) :
    commentsAbove source (lexemes.map Lexeme.span) rounds before.length line =
      .ok (Lexeme.commentsAbove line before) := by
  induction before generalizing behind rounds line with
  | nil =>
    obtain ⟨rounds, rfl⟩ := Nat.exists_eq_add_one_of_ne_zero (Nat.ne_zero_of_lt hrounds)
    rfl
  | cons candidate before ih =>
    obtain ⟨rounds, rfl⟩ := Nat.exists_eq_add_one_of_ne_zero (Nat.ne_zero_of_lt hrounds)
    have hshape : lexemes = before.reverse ++ candidate :: behind := by simp [h]
    have hmem : candidate ∈ lexemes := by simp [hshape]
    have hcandidate : item (lexemes.map Lexeme.span) before.length = .ok candidate.span := by
      apply item_eq
      simp [hshape]
    have hone : minus (before.length + 1) 1 = .ok before.length := minus_eq (by omega)
    have hkind : candidate.span.kind.isComment = candidate.isComment := rfl
    have hline : candidate.span.line = candidate.line := rfl
    have hlater := ih hshape (by simpa using hrounds) candidate.line
    rw [commentsAbove, Lexeme.commentsAbove, List.length_cons, if_neg (Nat.succ_ne_zero _)]
    simp only [hone, hcandidate, hkind, hline, lastLine_spec (hin _ hmem), body_spec (hin _ hmem),
      trailsCode_spec hin hshape, hlater, ok_bind]
    by_cases hcomment : candidate.isComment
    · by_cases hends : candidate.lastLine + 1 = line
      · by_cases hshares : Lexeme.sharesLineWithCode candidate before <;>
          simp [hcomment, hends, hshares]
      · simp [hcomment, hends]
    · simp [hcomment]

end

section

variable {source : Text} {lexemes : List Lexeme} (hin : ∀ lexeme ∈ lexemes, InSource source lexeme)

include hin

theorem leadingComments_spec {key : Lexeme.Placed} (h : StandsIn lexemes key) :
    leadingComments source (lexemes.map Lexeme.span) key.index = .ok key.leadingComments := by
  have habove := commentsAbove_spec hin h (Nat.lt_succ_self key.before.length) key.lexeme.line
  rw [leadingComments, item_index h, ok_bind]
  have hline : key.lexeme.span.line = key.lexeme.line := rfl
  have hindex : key.index = key.before.length := rfl
  rw [hline, hindex, habove]
  rfl

end

/-! ## Constants by number -/

theorem initialiserAt_spec {source : Text} {code : List Lexeme}
    (h : ∀ lexeme ∈ code, InSource source lexeme) :
    initialiserAt source (code[0]?.map Lexeme.span) (code[1]?.map Lexeme.span) =
      .ok (Constant.initialiser? code) := by
  match code, h with
  | [], _ | [_], _ => rfl
  | assign :: literal :: later, h =>
    simp only [List.forall_mem_cons] at h
    obtain ⟨hassign, hliteral, -⟩ := h
    have hkind : ∀ lexeme : Lexeme, lexeme.span.kind = lexeme.kind := fun _ => rfl
    simp only [List.getElem?_cons_zero, List.getElem?_cons_succ, Option.map_some, initialiserAt,
      Constant.initialiser?, hkind, text_spec hassign, body_spec hliteral, ok_bind]
    by_cases hpunctuation : assign.kind = .punctuation
    · by_cases hequals : assign.text = "="
      · simp only [hpunctuation, hequals, ne_eq, not_true_eq_false, if_false, true_and]
        split <;> rfl
      · simp only [hpunctuation, hequals, ne_eq, not_true_eq_false, not_false_eq_true, if_true,
          if_false, false_and, and_false]
        rfl
    · simp [hpunctuation]

theorem constantAt_spec {source : Text} {name : Lexeme} {following : List Lexeme}
    (h : ∀ lexeme ∈ name :: following, InSource source lexeme) :
    constantAt source ((name :: following).map Lexeme.span) =
      .ok ((Constant.spec? name following).map fun (constant, width) => (constant, width + 1)) := by
  obtain ⟨hname, hfollowing⟩ := List.forall_mem_cons.mp h
  have hkind : ∀ lexeme : Lexeme, lexeme.span.kind = lexeme.kind := fun _ => rfl
  unfold constantAt Constant.spec?
  cases following with
  | nil => simp
  | cons second others =>
    have hothers := initialiserAt_spec (List.forall_mem_cons.mp hfollowing).2
    have hsecond := initialiserAt_spec hfollowing
    simp only [List.map_cons, List.head?_cons, List.getElem?_cons_succ, List.getElem?_cons_zero, hkind]
    split
    · split
      · simp only [List.getElem?_cons_succ]
        rw [List.getElem?_map, List.getElem?_map, hothers, ok_bind, text_spec hname]
        cases Constant.initialiser? others <;> rfl
      · simp only [List.getElem?_cons_succ, List.getElem?_cons_zero, Option.map_some] at hsecond ⊢
        rw [List.getElem?_map, hsecond, ok_bind, text_spec hname]
        cases Constant.initialiser? (second :: others) <;> rfl
    · rfl

theorem isConst_spec {source : Text} {lexeme : Lexeme} (h : InSource source lexeme) :
    isConst source lexeme.span =
      .ok (decide (lexeme.kind = .identifier ∧ lexeme.text = "const")) := by
  have hkind : lexeme.span.kind = lexeme.kind := rfl
  rw [isConst, text_spec h, ok_bind, hkind]
  by_cases hname : lexeme.kind = .identifier
  · rw [if_pos hname]
    by_cases hword : lexeme.text = "const"
    · simp only [hname, hword, true_and, beq_self_eq_true]
      rfl
    · simp only [hname, hword, true_and, decide_false, beq_eq_false_iff_ne.mpr hword]
      rfl
  · rw [if_neg hname]
    simp [hname]

section

variable {source : Text} {code : List Lexeme} (h : ∀ lexeme ∈ code, InSource source lexeme)

include h

/-- What a reader finds that stands before `lexeme :: rest`. -/
theorem at_drop {number : Nat} {lexeme : Lexeme} {rest : List Lexeme}
    (hdrop : code.drop number = lexeme :: rest) :
    number < code.length ∧ InSource source lexeme ∧
      item (code.map Lexeme.span) number = .ok lexeme.span ∧
      itemsFrom (code.map Lexeme.span) number = .ok ((lexeme :: rest).map Lexeme.span) ∧
      constantAt source ((lexeme :: rest).map Lexeme.span) =
        .ok ((Constant.spec? lexeme rest).map fun (constant, width) => (constant, width + 1)) := by
  have hat : code[number]? = some lexeme := by
    rw [← Nat.add_zero number, ← List.getElem?_drop, hdrop, List.getElem?_cons_zero]
  have hlt : number < code.length := (List.getElem?_eq_some_iff.mp hat).1
  refine ⟨hlt, h _ (List.mem_of_getElem? hat), ?_, ?_, constantAt_spec fun other hother => ?_⟩
  · exact item_eq (by rw [List.getElem?_map, hat]; rfl)
  · rw [itemsFrom_eq (by rw [List.length_map]; omega), ← List.map_drop, hdrop]
  · rw [← hdrop] at hother
    exact h _ (List.mem_of_mem_drop hother)

theorem groupFrom_spec {rounds number : Nat} (hrounds : code.length - number < rounds) :
    ∃ found stop, groupFrom source (code.map Lexeme.span) rounds number = .ok (found, stop) ∧
      number ≤ stop ∧ Constant.declared .group (code.drop number) =
        found ++ Constant.declared .outside (code.drop stop) := by
  induction rounds generalizing number with
  | zero => omega
  | succ rounds ih =>
    rw [groupFrom, List.length_map]
    cases hdrop : code.drop number with
    | nil =>
      have hle : code.length ≤ number := List.drop_eq_nil_iff.mp hdrop
      refine ⟨[], number, if_neg (by omega), Nat.le_refl _, ?_⟩
      rw [hdrop, Constant.declared, Constant.declared]
      rfl
    | cons lexeme rest =>
      obtain ⟨hlt, -, hitem, hitems, hspec⟩ := at_drop h hdrop
      have hkind : lexeme.span.kind = lexeme.kind := rfl
      have hrest : rest = code.drop (number + 1) := by
        rw [← List.tail_drop, hdrop, List.tail_cons]
      rw [if_pos hlt, Constant.declared]
      simp only [hitem, hitems, hspec, hkind, ok_bind]
      split
      · rename_i hclose
        refine ⟨[], number, rfl, Nat.le_refl _, ?_⟩
        rw [hdrop, Constant.declared, List.nil_append]
        simp [Constant.Place.behind, hclose]
      · cases Constant.spec? lexeme rest with
        | none =>
          obtain ⟨found, stop, hfound, hle, hdeclared⟩ := ih (by omega : code.length - (number + 1) < rounds)
          refine ⟨found, stop, hfound, by omega, ?_⟩
          rw [← hdeclared, ← hrest]
        | some found =>
          obtain ⟨constant, width⟩ := found
          obtain ⟨found, stop, hfound, hle, hdeclared⟩ :=
            ih (by omega : code.length - (number + (width + 1)) < rounds)
          refine ⟨constant :: found, stop, ?_, by omega, ?_⟩
          · simp only [Option.map_some, hfound, ok_bind]
            rfl
          · simp only [List.cons_append]
            rw [← hdeclared, hrest, List.drop_drop]
            congr 3
            omega

theorem constantsFrom_spec {rounds number : Nat} (hrounds : code.length - number < rounds) :
    constantsFrom source (code.map Lexeme.span) rounds number =
      .ok (Constant.declared .outside (code.drop number)) := by
  induction rounds generalizing number with
  | zero => omega
  | succ rounds ih =>
    rw [constantsFrom, List.length_map]
    cases hdrop : code.drop number with
    | nil =>
      have hle : code.length ≤ number := List.drop_eq_nil_iff.mp hdrop
      rw [if_neg (by omega), Constant.declared]
      rfl
    | cons lexeme rest =>
      obtain ⟨hlt, hlexeme, hitem, -⟩ := at_drop h hdrop
      have hrest : code.drop (number + 1) = rest := by
        rw [← List.tail_drop, hdrop, List.tail_cons]
      have hnext : code[number + 1]? = rest.head? := by
        rw [← hrest, List.head?_drop]
      have hlater : ∀ {next : Nat}, number < next → constantsFrom source (code.map Lexeme.span) rounds next =
          .ok (Constant.declared .outside (code.drop next)) := fun hlt => ih (by omega)
      rw [if_pos hlt, hitem, ok_bind, isConst_spec hlexeme, ok_bind, Constant.declared,
        Constant.Place.behind, List.getElem?_map, hnext]
      by_cases hconst : lexeme.kind = .identifier ∧ lexeme.text = "const"
      · rw [if_pos hconst, if_pos (decide_eq_true hconst)]
        cases rest with
        | nil =>
          have hitems : itemsFrom (code.map Lexeme.span) (number + 1) = .ok [] := by
            rw [itemsFrom_eq (by rw [List.length_map]; omega), ← List.map_drop, hrest]
            rfl
          simp only [List.head?_nil, Option.map_none, Option.any_none, hitems, ok_bind, constantAt,
            hlater (Nat.lt_succ_self number), hrest, Constant.declared, pure_eq_ok]
          rfl
        | cons next rest =>
          obtain ⟨-, -, -, hitems, hspec⟩ := at_drop h hrest
          have hkind : next.span.kind = next.kind := rfl
          have hrest' : code.drop (number + 2) = rest := by
            rw [← List.tail_drop, hrest, List.tail_cons]
          rw [Constant.declared, List.head?_cons, Option.map_some, Option.any_some, hkind]
          simp only [decide_eq_true_eq]
          split
          · obtain ⟨found, stop, hfound, hle, hdeclared⟩ :=
              groupFrom_spec h (by omega : code.length - (number + 2) < code.length + 1)
            rw [hfound, ok_bind]
            simp only [hlater (by omega : number < stop), ok_bind]
            rw [← hrest', hdeclared]
            rfl
          · rw [hitems, ok_bind, hspec, ok_bind]
            cases Constant.spec? next rest with
            | none =>
              simp only [Option.map_none, hlater (Nat.lt_succ_self number), hrest]
              rw [Constant.declared]
            | some found =>
              obtain ⟨constant, width⟩ := found
              simp only [Option.map_some]
              rw [hlater (by omega), ok_bind, ← hrest', List.drop_drop]
              simp only [pure_eq_ok]
              congr 4
              omega
      · rw [if_neg hconst, if_neg (by simpa using hconst), hlater (Nat.lt_succ_self number), hrest]

end

theorem constants_spec {source : Text} {lexemes : List Lexeme}
    (h : ∀ lexeme ∈ lexemes, InSource source lexeme) :
    constants source (lexemes.map Lexeme.span) = .ok (Constant.all lexemes) := by
  have hcode : (lexemes.map Lexeme.span).filter (fun span => !span.kind.isComment) =
      (lexemes.filter fun lexeme => !lexeme.isComment).map Lexeme.span := List.filter_map
  rw [constants, hcode]
  exact constantsFrom_spec (fun lexeme hlexeme => h _ (List.mem_of_mem_filter hlexeme))
    (by rw [List.length_map]; omega)

/-! ## Both kinds of tables -/

theorem checkFrom_bare (opened : List Lexeme.OpenBracket) (lexemes : List Lexeme) :
    Lexeme.checkFrom opened ((lexemes.map Lexeme.span).map fun span =>
      ⟨span.kind, [], ⟨span.start, span.line⟩⟩) = Lexeme.checkFrom opened lexemes := by
  induction lexemes generalizing opened with
  | nil => rfl
  | cons lexeme rest ih =>
    simp only [List.map_cons, Lexeme.checkFrom, ih]
    rfl

theorem readTable_spec (source : Text) :
    readTable source = .ok ((Table.read source).map (List.map Lexeme.span)) := by
  rw [readTable, tokenize_spec, ok_bind, Table.read]
  cases Lexeme.readAll source with
  | error fault => rfl
  | ok lexemes =>
    have hchecked := checkFrom_bare [] lexemes
    show Except.ok (Lexeme.checkBalance _ >>= _) = Except.ok ((Lexeme.checkBalance lexemes >>= _).map _)
    rw [Lexeme.checkBalance, hchecked, Lexeme.checkBalance]
    cases Lexeme.checkFrom [] lexemes <;> rfl

theorem inSource_of_read {source : Text} {lexemes : List Lexeme} (h : Table.read source = .ok lexemes) :
    ∀ lexeme ∈ lexemes, InSource source lexeme := by
  intro lexeme hlexeme
  obtain ⟨htoken, hplace⟩ := Lexeme.pointsAt_of_readFrom (Position.pointsAt_start source)
    (Table.read_eq_ok h) lexeme hlexeme
  exact ⟨htoken, hplace⟩

theorem standsIn_of_mem_entries {lexemes : List Lexeme} {entry : Table.Entry}
    (h : entry ∈ Table.entries lexemes) : StandsIn lexemes entry.key ∧ StandsIn lexemes entry.value :=
  (Table.mem_of_mem_entriesOfCode h).imp standsIn_of_mem_code standsIn_of_mem_code

theorem key?_spec {source : Text} {key : Lexeme} (h : InSource source key)
    (constants : List Constant) :
    key? source constants key.span = .ok (Table.GoMap.key? constants key) := by
  have hkind : key.span.kind = key.kind := rfl
  unfold key? Table.GoMap.key?
  rw [hkind, body_spec h, text_spec h]
  split <;> simp_all

theorem value?_spec {source : Text} {value : Lexeme} (h : InSource source value) :
    value? source value.span = .ok (Table.GoMap.value? value) := by
  have hkind : value.span.kind = value.kind := rfl
  unfold value? Table.GoMap.value?
  rw [hkind, body_spec h, ok_bind, ok_bind, decode_spec]
  split <;> simp_all

section

variable {source : Text} {lexemes : List Lexeme} (hin : ∀ lexeme ∈ lexemes, InSource source lexeme)
  {entry : Table.Entry} (hentry : entry ∈ Table.entries lexemes)

include hin hentry

theorem plainPhrase?_spec : plainPhrase? source (lexemes.map Lexeme.span) entry.numbers =
    .ok (Table.Plain.phrase? entry) := by
  obtain ⟨hkey, hvalue⟩ := standsIn_of_mem_entries hentry
  have hkind : ∀ lexeme : Lexeme, lexeme.span.kind = lexeme.kind := fun _ => rfl
  simp only [plainPhrase?, Table.Entry.numbers, item_index hkey, item_index hvalue, ok_bind, hkind,
    body_spec (hin _ hvalue.mem), body_spec (hin _ hkey.mem), decode_spec,
    trailingComment_spec hin hvalue, Table.Plain.phrase?]
  split <;> rfl

theorem goPhrase?_spec (constants : List Constant) :
    goPhrase? source (lexemes.map Lexeme.span) constants entry.numbers =
      .ok (Table.GoMap.phrase? constants entry) := by
  obtain ⟨hkey, hvalue⟩ := standsIn_of_mem_entries hentry
  have hline : entry.key.lexeme.span.line = entry.key.lexeme.line := rfl
  simp only [goPhrase?, Table.Entry.numbers, item_index hkey, item_index hvalue, ok_bind, hline,
    key?_spec (hin _ hkey.mem), value?_spec (hin _ hvalue.mem), leadingComments_spec hin hkey,
    trailingComment_spec hin hvalue]
  unfold Table.GoMap.phrase?
  cases Table.GoMap.key? constants entry.key.lexeme with
  | none => rfl
  | some key => cases Table.GoMap.value? entry.value.lexeme <;> rfl

end

/-- Where each entry gives the phrase that it should, so does a whole table. -/
theorem found_of_entries {lexemes : List Lexeme} {guarded? : Nat × Nat → Guarded (Option Phrase)}
    {phrase? : Table.Entry → Option Phrase}
    (h : ∀ entry ∈ Table.entries lexemes, guarded? entry.numbers = .ok (phrase? entry)) :
    (do
      let entries ← entries (lexemes.map Lexeme.span)
      let found ← entries.mapM guarded?
      return .ok (found.filterMap id) : Guarded (Except Fault (List Phrase))) =
      .ok (.ok ((Table.entries lexemes).filterMap phrase?)) := by
  have hfound : (Table.entries lexemes).mapM (guarded? ∘ Table.Entry.numbers) =
      .ok ((Table.entries lexemes).map phrase?) := mapM_eq h
  rw [entries_spec, ok_bind, List.mapM_map, hfound, ok_bind, List.filterMap_map]
  rfl

theorem plainPhrases_spec (source : Text) : plainPhrases source = .ok (Table.Plain.phrases source) := by
  rw [plainPhrases, readTable_spec, ok_bind, Table.Plain.phrases]
  cases hread : Table.read source with
  | error fault => rfl
  | ok lexemes =>
    have hin := inSource_of_read hread
    exact found_of_entries fun entry hentry => plainPhrase?_spec hin hentry

theorem goPhrases_spec (source : Text) : goPhrases source = .ok (Table.GoMap.phrases source) := by
  rw [goPhrases, readTable_spec, ok_bind, Table.GoMap.phrases]
  cases hread : Table.read source with
  | error fault => rfl
  | ok lexemes =>
    have hin := inSource_of_read hread
    show (do
      let constants ← constants source (lexemes.map Lexeme.span)
      let entries ← entries (lexemes.map Lexeme.span)
      let found ← entries.mapM (goPhrase? source (lexemes.map Lexeme.span) constants)
      return .ok (found.filterMap id) : Guarded (Except Fault (List Phrase))) = _
    rw [constants_spec hin, ok_bind]
    exact found_of_entries fun entry hentry => goPhrase?_spec hin hentry _

end Guarded

end Phrasebook
