import Phrasebook.Proofs.Lexeme.Layout

/-!
# The grammar of lexemes

Which texts are complete tokens is said here for each kind, without regard to what stands behind them.
The reader takes the longest token that the source begins with, where a slash before a star is never a
token by itself.
-/

namespace Phrasebook.Lexeme

open Text

/-! ## Complete tokens -/

/-- The text is a complete token of the kind. -/
inductive IsToken : Kind → Text → Prop where
  | lineComment {inside : Text} (oneLine : '\n' ∉ inside) : IsToken .lineComment ("//" ++ inside)
  | blockComment {inside : Text} (ends : ¬ "*/".toList <:+: inside) :
    IsToken .blockComment ("/*" ++ inside ++ "*/")
  | quoted {quote : Quote} {body : Text} (escapes : quote ≠ .backtick)
    (h : LiteralBody quote.mark body) : IsToken (.quoted quote) (quote.mark :: (body ++ [quote.mark]))
  | raw {inside : Text} (ends : '`' ∉ inside) : IsToken (.quoted .backtick) ('`' :: (inside ++ ['`']))
  | opening (bracket : Bracket) : IsToken (.opening bracket) [bracket.opener]
  | closing (bracket : Bracket) : IsToken (.closing bracket) [bracket.closer]
  | colon : IsToken .colon [':']
  | comma : IsToken .comma [',']
  | identifier {c : Char} {rest : Text} (start : isNameStart c = true)
    (parts : ∀ d ∈ rest, isNamePart d = true) : IsToken .identifier (c :: rest)
  | number {c : Char} {rest : Text} (start : c.isDigit = true)
    (parts : ∀ d ∈ rest, isNumberPart d = true) : IsToken .number (c :: rest)
  | punctuation {c : Char} (h : isPunctuation c = true) : IsToken .punctuation [c]

/-- A token stands at the front of the source. What begins with `/*` can only be a comment. -/
structure Candidate (kind : Kind) (text source : Text) : Prop where
  token : IsToken kind text
  front : text <+: source
  comment : "/*".toList <+: source → kind = .blockComment

/-- The source begins with this token, and with no longer one. -/
structure Leads (kind : Kind) (text source : Text) : Prop extends Candidate kind text source where
  longest : ∀ {kind' text'}, Candidate kind' text' source → text'.length ≤ text.length

/-! ## Literals -/

theorem ofChar?_eq_some_iff {c : Char} {quote : Quote} :
    Quote.ofChar? c = some quote ↔ c = quote.mark := by
  constructor
  · intro h
    unfold Quote.ofChar? at h
    split at h <;> cases h <;> rfl
  · rintro rfl
    cases quote <;> rfl

theorem body_of_escapedWidth? {mark : Char} {rest : Text} {width : Nat}
    (h : escapedWidth? mark rest = some width) :
    ∃ body behind, LiteralBody mark body ∧ rest = body ++ mark :: behind ∧ width = body.length + 1 := by
  fun_induction escapedWidth? mark rest generalizing width with
  | case1 => cases h
  | case2 rest =>
    cases h
    exact ⟨[], rest, .nil, rfl, rfl⟩
  | case3 => cases h
  | case4 => cases h
  | case5 d rest hmark hnewline ih =>
    obtain ⟨later, hlater, rfl⟩ := Option.map_eq_some_iff.mp h
    obtain ⟨body, behind, hbody, rfl, rfl⟩ := ih hlater
    exact ⟨'\\' :: d :: body, behind, .escaped d hbody, rfl, rfl⟩
  | case6 c rest hmark hnewline hbackslash ih =>
    obtain ⟨later, hlater, rfl⟩ := Option.map_eq_some_iff.mp h
    obtain ⟨body, behind, hbody, rfl, rfl⟩ := ih hlater
    exact ⟨c :: body, behind, .plain hmark hbackslash hnewline hbody, rfl, rfl⟩

/-- No mark can begin inside a comment and end behind it. -/
theorem endsAt_iff_absent {inside : Text} : EndsAt "*/" inside ↔ ¬ "*/".toList <:+: inside := by
  constructor
  · rintro h ⟨left, right, rfl⟩
    have := h left ("*/" ++ right) (by simp) (by simp)
    simp [begins, after?] at this
  · rintro h left right rfl hright
    rw [Bool.eq_false_iff]
    intro hbegins
    apply h
    obtain _ | ⟨c, _ | ⟨d, right⟩⟩ := right
    · exact absurd rfl hright
    · simp [begins, after?] at hbegins
    · obtain ⟨behind, hbehind⟩ := begins_iff.mp hbegins
      simp at hbehind
      obtain ⟨rfl, rfl, -⟩ := hbehind
      exact ⟨left, right, by simp⟩

/-! ## The reader takes tokens -/

theorem isToken_of_ofChar? {c : Char} {kind : Kind} (h : Kind.ofChar? c = some kind) :
    IsToken kind [c] := by
  unfold Kind.ofChar? at h
  split at h
  · cases h; exact .opening .brace
  · cases h; exact .closing .brace
  · cases h; exact .opening .square
  · cases h; exact .closing .square
  · cases h; exact .opening .round
  · cases h; exact .closing .round
  · cases h; exact .colon
  · cases h; exact .comma
  · split at h
    · rename_i hpunctuation
      cases h
      exact .punctuation hpunctuation
    · cases h

theorem isToken_of_quotedWidth? {quote : Quote} {rest : Text} {width : Nat}
    (h : quotedWidth? quote rest = some width) :
    ∃ inside behind, rest = inside ++ behind ∧ inside.length = width ∧
      IsToken (.quoted quote) (quote.mark :: inside) := by
  have escaped : quote ≠ .backtick → escapedWidth? quote.mark rest = some width →
      ∃ inside behind, rest = inside ++ behind ∧ inside.length = width ∧
        IsToken (.quoted quote) (quote.mark :: inside) := by
    intro hquote hwidth
    obtain ⟨body, behind, hbody, rfl, rfl⟩ := body_of_escapedWidth? hwidth
    exact ⟨body ++ [quote.mark], behind, by simp, by simp, .quoted hquote hbody⟩
  cases quote with
  | double => exact escaped (by decide) h
  | single => exact escaped (by decide) h
  | backtick =>
    obtain ⟨⟨inside, behind⟩, hsplit, rfl⟩ := Option.map_eq_some_iff.mp h
    obtain ⟨rfl, hends⟩ := split?_eq_some_iff.mp hsplit
    exact ⟨inside ++ ['`'], behind, rfl, by simp, .raw (endsAt_singleton.mp hends)⟩

theorem isToken_of_first? {c : Char} {rest : Text} {kind : Kind} {width : Nat}
    (h : first? c rest = some (kind, width)) :
    ∃ inside behind, rest = inside ++ behind ∧ inside.length = width ∧ IsToken kind (c :: inside) := by
  -- A run of characters is as long as it can be.
  have run : ∀ p : Char → Bool, ∀ text : Text, text = text.takeWhile p ++ text.dropWhile p ∧
      ∀ d ∈ text.takeWhile p, p d = true :=
    fun p text => ⟨List.takeWhile_append_dropWhile.symm, List.all_eq_true.mp List.all_takeWhile⟩
  unfold first? at h
  split at h
  · rename_i body
    cases h
    obtain ⟨hbody, hline⟩ := run (· ≠ '\n') body
    refine ⟨'/' :: body.takeWhile (· ≠ '\n'), body.dropWhile (· ≠ '\n'), congrArg _ hbody, rfl, ?_⟩
    apply IsToken.lineComment
    intro hin
    simpa using hline _ hin
  · rename_i body
    obtain ⟨⟨inside, behind⟩, hsplit, heq⟩ := Option.map_eq_some_iff.mp h
    cases heq
    obtain ⟨rfl, hends⟩ := split?_eq_some_iff.mp hsplit
    refine ⟨'*' :: (inside ++ "*/"), behind, by simp, by simp, ?_⟩
    exact .blockComment (endsAt_iff_absent.mp hends)
  · split at h
    · rename_i quote hquote
      obtain ⟨width', hwidth, heq⟩ := Option.map_eq_some_iff.mp h
      cases heq
      rw [ofChar?_eq_some_iff.mp hquote]
      exact isToken_of_quotedWidth? hwidth
    · split at h
      · rename_i hstart
        cases h
        obtain ⟨hrest, hparts⟩ := run isNamePart rest
        exact ⟨_, _, hrest, rfl, .identifier hstart hparts⟩
      · split at h
        · rename_i hdigit
          cases h
          obtain ⟨hrest, hparts⟩ := run isNumberPart rest
          exact ⟨_, _, hrest, rfl, .number hdigit hparts⟩
        · obtain ⟨kind', hkind, heq⟩ := Option.map_eq_some_iff.mp h
          cases heq
          exact ⟨[], rest, rfl, rfl, isToken_of_ofChar? hkind⟩

/-- A literal is its body between two marks. -/
theorem text_of_quoted {lexeme : Lexeme} {quote : Quote} (hkind : lexeme.kind = .quoted quote)
    (h : IsToken lexeme.kind lexeme.text) :
    lexeme.text = quote.mark :: (lexeme.body ++ [quote.mark]) := by
  obtain ⟨kind, text, position⟩ := lexeme
  subst hkind
  cases h <;> simp [body, Quote.mark]

/-! ## Characters that begin a token -/

theorem not_isNameStart_of_isDigit {c : Char} (h : c.isDigit = true) : isNameStart c = false := by
  have hval : 48 ≤ c.toNat ∧ c.toNat ≤ 57 := by
    simpa [Char.isDigit, UInt32.le_iff_toNat_le] using h
  rw [Bool.eq_false_iff]
  intro hstart
  simp only [isNameStart, Bool.or_eq_true, decide_eq_true_eq] at hstart
  rcases hstart with (hletter | rfl) | rfl
  · obtain hupper | hlower := Bool.or_eq_true_iff.mp hletter
    · have hbounds := of_decide_eq_true hupper
      have : 65 ≤ c.toNat := UInt32.le_iff_toNat_le.mp hbounds.1
      omega
    · obtain ⟨hbound, -⟩ := Bool.and_eq_true_iff.mp hlower
      have : 97 ≤ c.toNat := UInt32.le_iff_toNat_le.mp (of_decide_eq_true hbound)
      omega
  · revert h
    decide
  · revert h
    decide

theorem ne_of_isDigit {c : Char} (h : c.isDigit = true) :
    isSpacing c = false ∧ c ≠ '/' ∧ Quote.ofChar? c = none := by
  refine ⟨?_, ?_, ?_⟩
  · rw [Bool.eq_false_iff]
    intro hspacing
    simp [isSpacing] at hspacing
    rcases hspacing with rfl | rfl | rfl | rfl | rfl <;> revert h <;> decide
  · rintro rfl
    revert h
    decide
  · unfold Quote.ofChar?
    split <;> simp_all

theorem first?_of_ne_slash {c : Char} (h : c ≠ '/') (hquote : Quote.ofChar? c = none) (rest : Text) :
    first? c rest =
      if isNameStart c then some (.identifier, (rest.takeWhile isNamePart).length)
      else if c.isDigit then some (.number, (rest.takeWhile isNumberPart).length)
      else (Kind.ofChar? c).map fun kind => (kind, 0) := by
  rw [first?.eq_def]
  split
  · exact absurd rfl h
  · exact absurd rfl h
  · rw [hquote]

theorem isSpacing_of_isPunctuation {c : Char} (h : isPunctuation c = true) : isSpacing c = false := by
  rw [Bool.eq_false_iff]
  intro hspacing
  simp [isSpacing] at hspacing
  rcases hspacing with rfl | rfl | rfl | rfl | rfl <;> revert h <;> decide

theorem first?_of_isPunctuation {c : Char} (h : isPunctuation c = true) (hslash : c ≠ '/')
    (rest : Text) : first? c rest = some (.punctuation, 0) := by
  have hc : c ∈ ".;=+-*/%<>!&|?~^@#".toList := by simpa [isPunctuation] using h
  simp at hc
  rcases hc with
    rfl | rfl | rfl | rfl | rfl | rfl | rfl | rfl | rfl | rfl | rfl | rfl | rfl | rfl | rfl | rfl |
    rfl | rfl
  all_goals first | exact absurd rfl hslash | rfl

theorem first?_slash_of_plain {rest : Text} (hslash : ¬ "/".toList <+: rest)
    (hstar : ¬ "*".toList <+: rest) : first? '/' rest = some (.punctuation, 0) := by
  unfold first?
  split
  · exact absurd ⟨_, rfl⟩ hslash
  · exact absurd ⟨_, rfl⟩ hstar
  · rfl

/-! ## Where tokens end -/

/-- Whether a token of the kind goes on with this character. -/
def Kind.goesOn : Kind → Char → Bool
  | .lineComment, d => d ≠ '\n'
  | .identifier, d => isNamePart d
  | .number, d => isNumberPart d
  | _, _ => false

/-- Such a character directly behind the token makes no longer one of it. -/
def Word.StopsAt (word : Word) (d : Char) : Prop :=
  word.kind.goesOn d = false ∧ (word.text = ['/'] → d ≠ '/' ∧ d ≠ '*')

theorem takeWhile_eq_nil_iff {p : Char → Bool} {text : Text} :
    text.takeWhile p = [] ↔ ∀ d ∈ text.head?, p d = false := by
  cases text with
  | nil => simp
  | cons d rest => cases hd : p d <;> simp [hd]

theorem endsBefore_of_quotedWidth? {quote : Quote} {inside behind : Text}
    (h : quotedWidth? quote (inside ++ behind) = some inside.length) :
    Word.EndsBefore ⟨.quoted quote, quote.mark :: inside⟩ behind := by
  refine ⟨quote.mark, inside, rfl, by cases quote <;> decide, ?_⟩
  cases quote <;> simp [first?, Quote.mark, Quote.ofChar?, h]

theorem endsBefore_literal {quote : Quote} {body : Text} (escapes : quote ≠ .backtick)
    (h : LiteralBody quote.mark body) (behind : Text) :
    Word.EndsBefore ⟨.quoted quote, quote.mark :: (body ++ [quote.mark])⟩ behind := by
  apply endsBefore_of_quotedWidth?
  have hwidth := escapedWidth?_of_body (by cases quote <;> decide) h behind
  rw [List.append_assoc, List.length_append]
  cases quote with
  | double => exact hwidth
  | single => exact hwidth
  | backtick => exact absurd rfl escapes

theorem endsBefore_raw {inside : Text} (ends : '`' ∉ inside) (behind : Text) :
    Word.EndsBefore ⟨.quoted .backtick, '`' :: (inside ++ ['`'])⟩ behind := by
  have hsplit : split? "`" (inside ++ ['`'] ++ behind) = some (inside, behind) :=
    split?_eq_some_iff.mpr ⟨rfl, endsAt_singleton.mpr ends⟩
  have hwidth : rawWidth? (inside ++ ['`'] ++ behind) = some (inside ++ ['`']).length := by
    rw [rawWidth?, hsplit, Option.map_some, List.length_append]
    rfl
  exact endsBefore_of_quotedWidth? hwidth

/-- What ends before everything goes on with nothing. -/
theorem first?_of_closed {kind : Kind} {c : Char} {inside behind : Text}
    (hclosed : ∀ d, kind.goesOn d = false) (h : Word.EndsBefore ⟨kind, c :: inside⟩ behind) :
    first? c (inside ++ behind) = some (kind, inside.length + (behind.takeWhile kind.goesOn).length) := by
  obtain ⟨_, _, htext, -, hfirst⟩ := h
  cases htext
  rw [takeWhile_eq_nil_iff.mpr fun d _ => hclosed d]
  exact hfirst

/-- The reader takes a token together with what it goes on with, except for a slash that opens a comment. -/
theorem first?_of_isToken {kind : Kind} {text : Text} (h : IsToken kind text) :
    ∃ c inside, text = c :: inside ∧ isSpacing c = false ∧ ∀ behind : Text,
      (text = ['/'] → ∀ d ∈ behind.head?, d ≠ '/' ∧ d ≠ '*') → first? c (inside ++ behind) =
        some (kind, inside.length + (behind.takeWhile kind.goesOn).length) := by
  cases h with
  | @lineComment inside oneLine =>
    refine ⟨'/', '/' :: inside, rfl, by decide, fun behind _ => ?_⟩
    have hline : ∀ d ∈ inside, Kind.lineComment.goesOn d = true := by
      intro d hd
      have hne : d ≠ '\n' := ne_of_mem_of_not_mem hd oneLine
      simpa [Kind.goesOn] using hne
    have hfirst : first? '/' ('/' :: inside ++ behind) =
        some (.lineComment, ((inside ++ behind).takeWhile Kind.lineComment.goesOn).length + 1) := rfl
    rw [hfirst, List.takeWhile_append_of_pos hline, List.length_append, List.length_cons, Nat.add_right_comm]
  | @blockComment inside ends =>
    have hends := endsBefore_blockComment (endsAt_iff_absent.mpr ends)
    exact ⟨'/', '*' :: (inside ++ "*/"), rfl, by decide, fun behind _ =>
      first?_of_closed (fun _ => rfl) (hends behind)⟩
  | @quoted quote body escapes h =>
    exact ⟨quote.mark, body ++ [quote.mark], rfl, by cases quote <;> decide, fun behind _ =>
      first?_of_closed (fun _ => rfl) (endsBefore_literal escapes h behind)⟩
  | @raw inside ends =>
    exact ⟨'`', inside ++ ['`'], rfl, by decide, fun behind _ =>
      first?_of_closed (fun _ => rfl) (endsBefore_raw ends behind)⟩
  | opening bracket =>
    refine ⟨bracket.opener, [], rfl, by cases bracket <;> decide, fun behind _ => ?_⟩
    refine first?_of_closed (fun _ => rfl) ?_
    cases bracket <;> exact endsBefore_char (by decide) (fun _ => rfl) behind
  | closing bracket =>
    refine ⟨bracket.closer, [], rfl, by cases bracket <;> decide, fun behind _ => ?_⟩
    refine first?_of_closed (fun _ => rfl) ?_
    cases bracket <;> exact endsBefore_char (by decide) (fun _ => rfl) behind
  | colon =>
    exact ⟨':', [], rfl, by decide, fun behind _ =>
      first?_of_closed (fun _ => rfl) (endsBefore_char (by decide) (fun _ => rfl) behind)⟩
  | comma =>
    exact ⟨',', [], rfl, by decide, fun behind _ =>
      first?_of_closed (fun _ => rfl) (endsBefore_char (by decide) (fun _ => rfl) behind)⟩
  | @identifier c rest start parts =>
    obtain ⟨hspacing, hslash, hquote⟩ := ne_of_isNameStart start
    refine ⟨c, rest, rfl, hspacing, fun behind _ => ?_⟩
    rw [first?_of_ne_slash hslash hquote, if_pos start, List.takeWhile_append_of_pos parts, List.length_append]
    rfl
  | @number c rest start parts =>
    obtain ⟨hspacing, hslash, hquote⟩ := ne_of_isDigit start
    refine ⟨c, rest, rfl, hspacing, fun behind _ => ?_⟩
    rw [first?_of_ne_slash hslash hquote, if_neg (by simp [not_isNameStart_of_isDigit start]), if_pos start,
      List.takeWhile_append_of_pos parts, List.length_append]
    rfl
  | @punctuation c h =>
    have hspacing := isSpacing_of_isPunctuation h
    refine ⟨c, [], rfl, hspacing, fun behind hplain => ?_⟩
    refine first?_of_closed (fun _ => rfl) ⟨c, [], rfl, hspacing, ?_⟩
    by_cases hc : c = '/'
    · subst hc
      refine first?_slash_of_plain ?_ ?_
      · rintro ⟨rest, rfl⟩
        exact (hplain rfl '/' rfl).1 rfl
      · rintro ⟨rest, rfl⟩
        exact (hplain rfl '*' rfl).2 rfl
    · exact first?_of_isPunctuation h hc behind

/-- A token ends before whatever does not make it longer. -/
theorem endsBefore_iff {kind : Kind} {text behind : Text} (h : IsToken kind text) :
    Word.EndsBefore ⟨kind, text⟩ behind ↔ ∀ d ∈ behind.head?, Word.StopsAt ⟨kind, text⟩ d := by
  obtain ⟨c, inside, rfl, hspacing, hfirst⟩ := first?_of_isToken h
  constructor
  · rintro ⟨_, _, htext, -, hends⟩ d hd
    cases htext
    have hplain : c :: inside = ['/'] → ∀ d ∈ behind.head?, d ≠ '/' ∧ d ≠ '*' := by
      rintro ⟨⟩ d hd
      obtain ⟨rest, rfl⟩ := List.head?_eq_some_iff.mp hd
      refine ⟨?_, ?_⟩
      · rintro rfl
        cases hends
      · rintro rfl
        obtain ⟨found, -, heq⟩ := Option.map_eq_some_iff.mp hends
        cases heq
    have hwidth := congrArg (Option.map Prod.snd) (hends.symm.trans (hfirst behind hplain))
    have hlength : inside.length = inside.length + (behind.takeWhile kind.goesOn).length :=
      Option.some.inj hwidth
    have hnil : behind.takeWhile kind.goesOn = [] := List.length_eq_zero_iff.mp (by omega)
    exact ⟨takeWhile_eq_nil_iff.mp hnil d hd, fun htext => hplain htext d hd⟩
  · intro hstops
    refine ⟨c, inside, rfl, hspacing, ?_⟩
    rw [hfirst behind fun htext d hd => (hstops d hd).2 htext,
      takeWhile_eq_nil_iff.mpr fun d hd => (hstops d hd).1]
    rfl

/-! ## Tokens are taken by the reader -/

/-- Where a token with this text stands before `behind`, the reader takes something at least as long,
and the token itself if it is as long. -/
def Taken (kind : Kind) (c : Char) (inside behind : Text) : Prop :=
  ∃ kind' width, first? c (inside ++ behind) = some (kind', width) ∧ inside.length ≤ width ∧
    (width = inside.length → kind' = kind)

/-- Every token is taken, except for a slash that opens a comment. -/
theorem taken_of_isToken {kind : Kind} {text : Text} (h : IsToken kind text) :
    ∃ c inside, text = c :: inside ∧ isSpacing c = false ∧
      ∀ behind, Taken kind c inside behind ∨ text = ['/'] ∧ "*".toList <+: behind := by
  obtain ⟨c, inside, rfl, hspacing, hfirst⟩ := first?_of_isToken h
  refine ⟨c, inside, rfl, hspacing, fun behind => ?_⟩
  by_cases hplain : c :: inside = ['/'] → ∀ d ∈ behind.head?, d ≠ '/' ∧ d ≠ '*'
  · exact .inl ⟨kind, _, hfirst behind hplain, Nat.le_add_right _ _, fun _ => rfl⟩
  · simp only [Classical.not_imp, Classical.not_forall, not_and_or, Classical.not_not] at hplain
    obtain ⟨⟨⟩, d, hd, hcomment⟩ := hplain
    obtain ⟨rest, rfl⟩ := List.head?_eq_some_iff.mp hd
    rcases hcomment with rfl | rfl
    · exact .inl ⟨.lineComment, _, rfl, Nat.zero_le _, by simp⟩
    · exact .inr ⟨rfl, rest, rfl⟩

/-! ## What the reader takes -/

theorem Candidate.taken {kind : Kind} {text rest : Text} {c : Char}
    (h : Candidate kind text (c :: rest)) :
    ∃ inside behind, text = c :: inside ∧ rest = inside ++ behind ∧ isSpacing c = false ∧
      Taken kind c inside behind := by
  obtain ⟨c', inside, rfl, hspacing, htaken⟩ := taken_of_isToken h.token
  obtain ⟨behind, hbehind⟩ := h.front
  obtain ⟨rfl, hrest⟩ := List.cons_eq_cons.mp hbehind
  refine ⟨inside, behind, rfl, hrest.symm, hspacing, (htaken behind).resolve_right ?_⟩
  rintro ⟨hslash, body, rfl⟩
  cases hslash
  have hkind : kind = .blockComment := h.comment ⟨body, hrest ▸ rfl⟩
  subst hkind
  cases h.token

theorem Candidate.of_first? {c : Char} {rest : Text} {kind : Kind} {width : Nat}
    (h : first? c rest = some (kind, width)) : Candidate kind (c :: rest.take width) (c :: rest) := by
  obtain ⟨inside, behind, rfl, rfl, htoken⟩ := isToken_of_first? h
  rw [List.take_left]
  refine ⟨htoken, ⟨behind, rfl⟩, ?_⟩
  rintro ⟨body, hbody⟩
  obtain ⟨rfl, hrest⟩ := List.cons_eq_cons.mp hbody
  rw [← hrest] at h
  obtain ⟨found, -, heq⟩ := Option.map_eq_some_iff.mp h
  exact congrArg Prod.fst heq.symm

/-- The reader takes the token that the source begins with. -/
theorem leads_iff_endsBefore {kind : Kind} {text behind : Text} :
    Leads kind text (text ++ behind) ↔ Word.EndsBefore ⟨kind, text⟩ behind := by
  constructor
  · intro h
    obtain ⟨c, inside, rfl, -⟩ := taken_of_isToken h.token
    rw [List.cons_append] at h
    obtain ⟨inside', behind', heq, hrest, hspacing, kind', width, hfirst, hle, hkind⟩ := h.taken
    cases heq
    obtain rfl : behind = behind' := List.append_cancel_left hrest
    have hlonger := h.longest (Candidate.of_first? hfirst)
    obtain ⟨taken, later, htaken, rfl, -⟩ := isToken_of_first? hfirst
    have hwidth : taken.length = inside.length := by
      rw [htaken, List.take_left, List.length_cons, List.length_cons] at hlonger
      omega
    refine ⟨c, inside, rfl, hspacing, ?_⟩
    rw [hfirst, hkind hwidth, hwidth]
  · rintro ⟨c, inside, htext, -, hfirst⟩
    cases htext
    have hcandidate := Candidate.of_first? hfirst
    rw [List.take_left] at hcandidate
    refine ⟨hcandidate, ?_⟩
    intro kind' text' h
    rw [List.cons_append] at h
    obtain ⟨inside', behind', rfl, hrest, -, kind'', width, hfirst', hle, -⟩ := h.taken
    rw [← hrest, hfirst] at hfirst'
    cases hfirst'
    exact Nat.succ_le_succ hle

/-- The reader takes nothing where no token stands. -/
theorem first?_eq_none_iff {c : Char} {rest : Text} :
    first? c rest = none ↔ ∀ kind text, ¬ Candidate kind text (c :: rest) := by
  constructor
  · intro hnone kind text h
    obtain ⟨inside, behind, rfl, rfl, -, kind', width, hfirst, -⟩ := h.taken
    rw [hnone] at hfirst
    cases hfirst
  · intro hnone
    rw [Option.eq_none_iff_forall_ne_some]
    rintro ⟨kind, width⟩ hfirst
    exact hnone _ _ (Candidate.of_first? hfirst)

/-- A token that leads the source still does so if less stands behind it. -/
theorem Leads.of_append {kind : Kind} {text middle behind : Text}
    (h : Leads kind text (text ++ (middle ++ behind))) : Leads kind text (text ++ middle) := by
  have hfront : text ++ middle <+: text ++ (middle ++ behind) := ⟨behind, List.append_assoc ..⟩
  refine ⟨⟨h.token, List.prefix_append .., fun hc => h.comment (hc.trans hfront)⟩, ?_⟩
  intro kind' text' h'
  by_cases htwo : 2 ≤ (text ++ middle).length
  · refine h.longest ⟨h'.token, h'.front.trans hfront, fun hc => h'.comment ?_⟩
    exact List.prefix_of_prefix_length_le hc hfront htwo
  · -- Behind a single character nothing can be left to take.
    obtain ⟨c, inside, rfl, -⟩ := taken_of_isToken h.token
    have := h'.front.length_le
    simp only [List.cons_append, List.length_cons] at this htwo ⊢
    omega

end Phrasebook.Lexeme
