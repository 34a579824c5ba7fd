import Mathlib.Data.List.Forall2
import Phrasebook.Proofs.Lexeme.LineEnding
import Phrasebook.Proofs.Table.Place

/-!
# String tables of Go and line endings

With carriage returns before its line breaks a table has the same entries. They show in a raw literal that
is a key, in a comment of several lines, and where a literal is continued: such a table cannot be read.
-/

namespace Phrasebook

open Text

namespace Lexeme

/-! ## Brackets and comments -/

section

variable {lexeme returned : Lexeme} {lexemes lexemes' : List Lexeme}

theorem Returned.isComment (h : Returned lexeme returned) : returned.isComment = lexeme.isComment := by
  rw [Lexeme.isComment, h.kind, Lexeme.isComment]

/-- Names and marks stay as they are. -/
theorem Returned.text (h : Returned lexeme returned)
    (hkind : lexeme.kind = .identifier ∨ lexeme.kind = .punctuation) : returned.text = lexeme.text := by
  have hbody : returned.body = lexeme.body := by
    apply h.oneLine <;> rcases hkind with hkind | hkind <;> simp [hkind]
  have hkind' := h.kind
  rcases hkind with hkind | hkind <;> simpa [Lexeme.body, hkind', hkind] using hbody

theorem checkFrom_returned {opened opened' : List OpenBracket} (h : List.Forall₂ Returned lexemes lexemes')
    (hopened : opened'.map OpenBracket.bracket = opened.map OpenBracket.bracket)
    (hcheck : checkFrom opened lexemes = .ok ()) : checkFrom opened' lexemes' = .ok () := by
  induction h generalizing opened opened' with
  | nil =>
    cases opened with
    | nil =>
      obtain rfl : opened' = [] := by simpa using hopened
      rfl
    | cons => cases hcheck
  | @cons lexeme returned lexemes lexemes' hlexeme _ ih =>
    rw [checkFrom] at hcheck ⊢
    rw [hlexeme.kind]
    split at hcheck
    · exact ih (by simpa using hopened) hcheck
    · cases opened with
      | nil => cases hcheck
      | cons innermost outer =>
        obtain ⟨innermost', outer', rfl, hinnermost, houter⟩ := List.map_eq_cons_iff.mp hopened
        simp only [hinnermost] at hcheck ⊢
        split at hcheck
        · rename_i hmatch
          rw [if_pos hmatch]
          exact ih houter hcheck
        · cases hcheck
    · exact ih hopened hcheck

theorem checkBalance_returned (h : List.Forall₂ Returned lexemes lexemes')
    (hcheck : checkBalance lexemes = .ok ()) : checkBalance lexemes' = .ok () :=
  checkFrom_returned h rfl hcheck

/-- A place among lexemes, and what becomes of it. -/
structure Placed.Returned (placed returned : Placed) : Prop where
  lexeme : Lexeme.Returned placed.lexeme returned.lexeme
  before : List.Forall₂ Lexeme.Returned placed.before returned.before
  behind : List.Forall₂ Lexeme.Returned placed.behind returned.behind

theorem placedAfter_returned {before before' : List Lexeme} (hbefore : List.Forall₂ Returned before before')
    (h : List.Forall₂ Returned lexemes lexemes') :
    List.Forall₂ Placed.Returned (placedAfter before lexemes) (placedAfter before' lexemes') := by
  induction h generalizing before before' with
  | nil => exact .nil
  | cons hlexeme hbehind ih => exact .cons ⟨hlexeme, hbefore, hbehind⟩ (ih (.cons hlexeme hbefore))

theorem sharesLineWithCode_returned (hlexeme : Returned lexeme returned)
    (h : List.Forall₂ Returned lexemes lexemes') :
    sharesLineWithCode returned lexemes' = sharesLineWithCode lexeme lexemes := by
  cases h with
  | nil => rfl
  | cons hprevious _ =>
    simp [sharesLineWithCode, hprevious.isComment, hprevious.lastLine, hlexeme.line]

theorem commentsAbove_returned (line : Nat) (h : List.Forall₂ Returned lexemes lexemes') :
    commentsAbove line lexemes' = (commentsAbove line lexemes).map withReturns := by
  induction h generalizing line with
  | nil => rfl
  | cons hcandidate hbefore ih =>
    rw [commentsAbove, commentsAbove, hcandidate.isComment, hcandidate.lastLine, hcandidate.line,
      sharesLineWithCode_returned hcandidate hbefore]
    split
    · rw [List.map_cons, hcandidate.body, ih]
    · rfl

theorem leadingComments_returned {placed returned : Placed} (h : placed.Returned returned) :
    returned.leadingComments = placed.leadingComments.map withReturns := by
  rw [Placed.leadingComments, Placed.leadingComments, h.lexeme.line, commentsAbove_returned _ h.before,
    List.map_reverse]

theorem trailingComment_returned {placed returned : Placed} (h : placed.Returned returned) :
    returned.trailingComment = placed.trailingComment.map withReturns := by
  have hcomment : ∀ {candidates candidates' : List Lexeme}, List.Forall₂ Returned candidates candidates' →
      (candidates'.head?.filter fun c => c.isComment && c.line == returned.lexeme.lastLine).map Lexeme.body =
        ((candidates.head?.filter fun c => c.isComment && c.line == placed.lexeme.lastLine).map
          Lexeme.body).map withReturns := by
    intro candidates candidates' hcandidates
    cases hcandidates with
    | nil => rfl
    | cons hcandidate _ =>
      simp only [List.head?_cons, Option.filter_some, hcandidate.isComment, hcandidate.line,
        h.lexeme.lastLine]
      split
      · simp [hcandidate.body]
      · rfl
  rw [Placed.trailingComment, Placed.trailingComment]
  obtain ⟨lexeme, before, behind⟩ := placed
  obtain ⟨lexeme', before', behind'⟩ := returned
  obtain ⟨-, -, hbehind⟩ := h
  cases hbehind with
  | nil => rfl
  | cons hnext hothers =>
    simp only [hnext.kind]
    split
    · exact hcomment hothers
    · exact hcomment (.cons hnext hothers)

end

end Lexeme

namespace Table

open Lexeme (Placed Returned)

/-! ## Reading -/

theorem read_withReturns {source : Text} {lexemes : List Lexeme} (hreturns : '\r' ∉ source)
    (h : read source = .ok lexemes) :
    (∃ returned, read source.withReturns = .ok returned ∧ List.Forall₂ Returned lexemes returned ∧
        ∀ lexeme ∈ lexemes, lexeme.isContinued = false) ∨
      ∃ fault, read source.withReturns = .error fault ∧ Lexeme.LeftOpen lexemes fault := by
  obtain ⟨all, hread, hchecked⟩ := bind_eq_ok.mp h
  obtain ⟨⟨⟩, hbalance, hall⟩ := bind_eq_ok.mp hchecked
  cases hall
  rcases Lexeme.readAll_withReturns hreturns hread with
    ⟨returned, hok, hreturned, hnone⟩ | ⟨fault, herror, hopen⟩
  · refine .inl ⟨returned, ?_, hreturned, hnone⟩
    exact bind_eq_ok.mpr ⟨returned, hok, bind_eq_ok.mpr
      ⟨(), Lexeme.checkBalance_returned hreturned hbalance, rfl⟩⟩
  · exact .inr ⟨fault, bind_eq_error.mpr (.inl herror), hopen⟩

/-! ## Entries -/

structure Entry.Returned (entry returned : Entry) : Prop where
  key : entry.key.Returned returned.key
  value : entry.value.Returned returned.value

section

variable {lexemes lexemes' : List Lexeme} {code code' : List Placed}

theorem code_returned (h : List.Forall₂ Returned lexemes lexemes') :
    List.Forall₂ Placed.Returned (Table.code lexemes) (Table.code lexemes') := by
  refine List.rel_filter ?_ (Lexeme.placedAfter_returned .nil h)
  intro placed returned hplaced
  simp [hplaced.lexeme.isComment]

theorem atFront?_returned (h : List.Forall₂ Placed.Returned code code') :
    List.Forall₂ Entry.Returned (Entry.atFront? code).toList (Entry.atFront? code').toList := by
  obtain _ | ⟨hbefore, _ | ⟨hkey, _ | ⟨hcolon, _ | ⟨hvalue, _ | ⟨hbehind, _⟩⟩⟩⟩⟩ := h
  all_goals try exact .nil
  rw [Entry.atFront?, Entry.atFront?, hbefore.lexeme.kind, hkey.lexeme.kind, hcolon.lexeme.kind,
    hbehind.lexeme.kind]
  split
  · exact .cons ⟨hkey, hvalue⟩ .nil
  · exact .nil

theorem entriesOfCode_returned (h : List.Forall₂ Placed.Returned code code') :
    List.Forall₂ Entry.Returned (entriesOfCode code) (entriesOfCode code') := by
  induction h with
  | nil => exact .nil
  | cons hplaced hrest ih => exact List.rel_append (atFront?_returned (.cons hplaced hrest)) ih

theorem entries_returned (h : List.Forall₂ Returned lexemes lexemes') :
    List.Forall₂ Entry.Returned (entries lexemes) (entries lexemes') :=
  entriesOfCode_returned (code_returned h)

end

/-! ## Constants -/

namespace Constant

def withReturns (constant : Constant) : Constant := ⟨constant.name, constant.value.withReturns⟩

section

variable {name name' : Lexeme} {following following' code code' : List Lexeme}

theorem initialiser?_returned (h : List.Forall₂ Returned following following') :
    initialiser? following' = (initialiser? following).map Text.withReturns := by
  cases h with
  | nil => rfl
  | @cons assign _ _ _ hassign hbehind =>
    cases hbehind with
    | nil => rfl
    | cons hliteral _ =>
      rw [initialiser?, initialiser?, hassign.kind, hliteral.kind, hliteral.body]
      by_cases hkind : assign.kind = .punctuation
      · rw [hassign.text (.inr hkind)]
        split <;> rfl
      · simp [hkind]

theorem spec?_returned (hname : Returned name name') (h : List.Forall₂ Returned following following') :
    spec? name' following' = (spec? name following).map fun found => (found.1.withReturns, found.2) := by
  rw [spec?.eq_def, spec?.eq_def, hname.kind]
  split
  · rename_i hkind
    rw [hname.text (.inl hkind)]
    cases h with
    | nil => rfl
    | @cons next _ others _ hnext hothers =>
      simp only [hnext.kind, initialiser?_returned hothers, initialiser?_returned (.cons hnext hothers),
        Option.map_map]
      split <;> simp [Function.comp_def, withReturns]
  · rfl

theorem behind_returned (h : Returned name name') : Place.behind name' = Place.behind name := by
  rw [Place.behind, Place.behind, h.kind]
  by_cases hkind : name.kind = .identifier
  · rw [h.text (.inl hkind)]
  · simp [hkind]

theorem declared_returned (place : Place) (h : List.Forall₂ Returned code code') :
    declared place code' = (declared place code).map withReturns := by
  fun_induction declared place code generalizing code' with
  | case1 =>
    cases h
    rw [declared]
    rfl
  | case2 lexeme rest ih =>
    obtain _ | ⟨hlexeme, hrest⟩ := h
    rw [declared, behind_returned hlexeme, ih hrest]
  | case3 lexeme rest hround ih =>
    obtain _ | ⟨hlexeme, hrest⟩ := h
    rw [declared, hlexeme.kind, if_pos hround, ih hrest]
  | case4 lexeme rest hround constant width hspec ih =>
    obtain _ | ⟨hlexeme, hrest⟩ := h
    rw [declared, hlexeme.kind, if_neg hround, spec?_returned hlexeme hrest, hspec]
    simp only [Option.map_some, List.map_cons, ih (List.forall₂_drop width hrest)]
  | case5 lexeme rest hround hspec ih =>
    obtain _ | ⟨hlexeme, hrest⟩ := h
    rw [declared, hlexeme.kind, if_neg hround, spec?_returned hlexeme hrest, hspec]
    simp only [Option.map_none, behind_returned hlexeme, ih hrest]
  | case6 lexeme rest hround ih =>
    obtain _ | ⟨hlexeme, hrest⟩ := h
    rw [declared, hlexeme.kind, if_pos hround, ih hrest]
  | case7 lexeme rest hround constant width hspec ih =>
    obtain _ | ⟨hlexeme, hrest⟩ := h
    rw [declared, hlexeme.kind, if_neg hround, spec?_returned hlexeme hrest, hspec]
    simp only [Option.map_some, List.map_cons, ih (List.forall₂_drop width hrest)]
  | case8 lexeme rest hround hspec ih =>
    obtain _ | ⟨hlexeme, hrest⟩ := h
    rw [declared, hlexeme.kind, if_neg hround, spec?_returned hlexeme hrest, hspec]
    simp only [Option.map_none, ih hrest]

theorem all_returned (h : List.Forall₂ Returned code code') : all code' = (all code).map withReturns := by
  refine declared_returned .outside (List.rel_filter ?_ h)
  intro lexeme returned hlexeme
  simp [hlexeme.isComment]

theorem value?_withReturns (constants : List Constant) (name : Text) :
    value? (constants.map withReturns) name = (value? constants name).map Text.withReturns := by
  rw [value?, value?, ← List.map_reverse, List.find?_map, Option.map_map, Option.map_map]
  rfl

end

end Constant

/-! ## Phrases -/

/-- The comments that make up the hint of an entry. -/
def Entry.comments (entry : Entry) : List Text := entry.leadingComments ++ entry.trailingComment.toList

theorem comments_returned {entry returned : Entry} (h : entry.Returned returned) :
    returned.comments = entry.comments.map withReturns := by
  simp only [Entry.comments, Entry.leadingComments, Entry.trailingComment,
    Lexeme.leadingComments_returned h.key, Lexeme.trailingComment_returned h.value, List.map_append]
  cases entry.value.trailingComment <;> rfl

namespace GoMap

section

variable {constants : List Constant} {entry returned : Entry} {phrase : Phrase}

theorem key?_returned {key key' : Lexeme} (h : Returned key key') :
    key? (constants.map Constant.withReturns) key' = (key? constants key).map withReturns := by
  rw [key?.eq_def, key?.eq_def, h.kind]
  split
  · rw [h.body]
    rfl
  · rw [h.body]
    rfl
  · rename_i hkind
    rw [h.text (.inl hkind), Constant.value?_withReturns]
  · rfl

/-- Carriage returns are dropped from a raw literal, and other literals are on one line. -/
theorem value?_returned {value value' : Lexeme} (h : Returned value value') :
    value? value' = value? value := by
  rw [value?.eq_def, value?.eq_def, h.kind]
  split
  · rename_i hkind
    rw [h.oneLine (by simp [hkind]) (by simp [hkind])]
  · rw [h.body]
    exact congrArg some (withoutReturns_withReturns value.body)
  · rfl

/-- The phrase of an entry where line breaks have got carriage returns. -/
def returnedPhrase (entry : Entry) (phrase : Phrase) : Phrase :=
  { phrase with
    key := phrase.key.map withReturns
    hint := Phrase.hintOfLines (entry.comments.map withReturns) }

theorem phrase?_returned (h : entry.Returned returned) :
    phrase? (constants.map Constant.withReturns) returned =
      (phrase? constants entry).map (returnedPhrase entry) := by
  have hcomments := comments_returned h
  rw [Entry.comments] at hcomments
  rw [phrase?, phrase?, key?_returned h.key.lexeme, value?_returned h.value.lexeme, hcomments,
    h.key.lexeme.line]
  cases key? constants entry.key.lexeme with
  | none => rfl
  | some key => cases value? entry.value.lexeme <;> rfl

theorem hint_eq_of_phrase? (h : phrase? constants entry = some phrase) :
    phrase.hint = Phrase.hintOfLines entry.comments := by
  obtain ⟨key, value, -, -, rfl⟩ := phrase?_eq_some h
  rfl

theorem hintOfLines_withReturns_iff {lines : List Text} :
    Phrase.hintOfLines (lines.map withReturns) = Phrase.hintOfLines lines ↔ ∀ line ∈ lines, '\n' ∉ line := by
  constructor
  · intro h line hline
    have hjoin : join "\n" (lines.map withReturns) = join "\n" lines := by
      cases lines with
      | nil => rfl
      | cons => exact Option.some.inj h
    have hlength := length_join_withReturns "\n" lines
    rw [hjoin, Nat.left_eq_add, List.sum_eq_zero_iff_forall_eq_nat] at hlength
    exact List.count_eq_zero.mp (hlength _ (List.mem_map_of_mem hline))
  · intro h
    rw [List.map_congr_left fun line hline => withReturns_of_not_mem (h line hline), List.map_id']

/-- The phrase without the carriage returns in its key and its hint. -/
def withoutReturns (phrase : Phrase) : Phrase :=
  { phrase with key := phrase.key.map Text.withoutReturns, hint := phrase.hint.map Text.withoutReturns }

theorem withoutReturns_returnedPhrase (h : phrase? constants entry = some phrase) :
    withoutReturns (returnedPhrase entry phrase) = withoutReturns phrase := by
  have hkey : (phrase.key.map withReturns).map Text.withoutReturns = phrase.key.map Text.withoutReturns := by
    rw [Option.map_map]
    exact congrArg (Option.map · phrase.key) (funext withoutReturns_withReturns)
  have hhint : (Phrase.hintOfLines (entry.comments.map withReturns)).map Text.withoutReturns =
      phrase.hint.map Text.withoutReturns := by
    rw [hint_eq_of_phrase? h]
    cases entry.comments with
    | nil => rfl
    | cons first others =>
      show some (Text.withoutReturns (join "\n" ((first :: others).map withReturns))) =
        some (Text.withoutReturns (join "\n" (first :: others)))
      have hclean : Text.withoutReturns ∘ withReturns = Text.withoutReturns :=
        funext withoutReturns_withReturns
      rw [withoutReturns_join, withoutReturns_join, List.map_map, hclean]
  simp only [withoutReturns, returnedPhrase, hkey, hhint]

theorem returnedPhrase_eq_self_iff (h : phrase? constants entry = some phrase) :
    returnedPhrase entry phrase = phrase ↔
      (∀ key ∈ phrase.key, '\n' ∉ key) ∧ ∀ comment ∈ entry.comments, '\n' ∉ comment := by
  have hhint := hint_eq_of_phrase? h
  obtain ⟨key, value, hint, kind, line⟩ := phrase
  obtain rfl : hint = _ := hhint
  simp only [returnedPhrase, Phrase.mk.injEq, true_and, and_true, hintOfLines_withReturns_iff]
  cases key <;> simp [withReturns_eq_self_iff]

end

/-! ## Whole tables -/

section

variable {α β : Type} {f : α → Option β} {g : α → β → β}

theorem filterMap_map_eq_self_iff {all : List α} :
    all.filterMap (fun a => (f a).map (g a)) = all.filterMap f ↔
      ∀ a ∈ all, ∀ b, f a = some b → g a b = b := by
  induction all with
  | nil => simp
  | cons a all ih =>
    rw [List.filterMap_cons, List.filterMap_cons, List.forall_mem_cons, ← ih]
    cases f a <;> simp

theorem map_filterMap_map {γ : Type} {clean : β → γ} {all : List α}
    (h : ∀ a b, f a = some b → clean (g a b) = clean b) :
    (all.filterMap fun a => (f a).map (g a)).map clean = (all.filterMap f).map clean := by
  rw [List.map_filterMap, List.map_filterMap]
  congr 1
  funext a
  cases hb : f a with
  | none => rfl
  | some b => exact congrArg some (h a b hb)

end

/-- The phrases of a table where line breaks have got carriage returns. -/
theorem filterMap_returned {lexemes returned : List Lexeme} (h : List.Forall₂ Returned lexemes returned) :
    (entries returned).filterMap (phrase? (Constant.all returned)) =
      (entries lexemes).filterMap fun entry =>
        (phrase? (Constant.all lexemes) entry).map (returnedPhrase entry) := by
  symm
  apply filterMap_eq_filterMap_of_forall₂
  rw [Constant.all_returned h]
  exact (entries_returned h).imp fun entry returned hentry => (phrase?_returned hentry).symm

/-- Line endings matter to a table in three ways alone: a line break in the key of a phrase or in a comment
of its hint gets a carriage return, and a literal that is continued is left open. Where there is none of
these, the phrases are the same. -/
theorem phrases_withReturns {source : Text} {found : List Phrase} (hreturns : '\r' ∉ source)
    (h : phrases source = .ok found) :
    ∃ lexemes, read source = .ok lexemes ∧
      (phrases source.withReturns = .ok found ↔
        (∀ lexeme ∈ lexemes, lexeme.isContinued = false) ∧
          ∀ entry ∈ entries lexemes, ∀ phrase, phrase? (Constant.all lexemes) entry = some phrase →
            (∀ key ∈ phrase.key, '\n' ∉ key) ∧ ∀ comment ∈ entry.comments, '\n' ∉ comment) ∧
      (∀ returned, phrases source.withReturns = .ok returned →
        returned.map withoutReturns = found.map withoutReturns) ∧
      ∀ fault, phrases source.withReturns = .error fault → Lexeme.LeftOpen lexemes fault := by
  obtain ⟨lexemes, hread, rfl⟩ := map_eq_ok.mp h
  refine ⟨lexemes, hread, ?_⟩
  rcases read_withReturns hreturns hread with ⟨returned, hok, hreturned, hnone⟩ | ⟨fault, herror, hopen⟩
  · have hphrases : phrases source.withReturns =
        .ok ((entries returned).filterMap (phrase? (Constant.all returned))) := map_eq_ok.mpr ⟨_, hok, rfl⟩
    rw [filterMap_returned hreturned] at hphrases
    rw [hphrases]
    refine ⟨?_, ?_, nofun⟩
    · rw [Except.ok.injEq, filterMap_map_eq_self_iff]
      constructor
      · intro hsame
        refine ⟨hnone, fun entry hentry phrase hphrase => ?_⟩
        exact (returnedPhrase_eq_self_iff hphrase).mp (hsame entry hentry phrase hphrase)
      · rintro ⟨-, hplain⟩ entry hentry phrase hphrase
        exact (returnedPhrase_eq_self_iff hphrase).mpr (hplain entry hentry phrase hphrase)
    · rintro _ ⟨⟩
      exact map_filterMap_map fun entry phrase hphrase => withoutReturns_returnedPhrase hphrase
  · have hphrases : phrases source.withReturns = .error fault := map_eq_error.mpr herror
    rw [hphrases]
    refine ⟨⟨nofun, fun ⟨hnone, _⟩ => ?_⟩, nofun, ?_⟩
    · obtain ⟨lexeme, hfirst, -⟩ := hopen.line
      have hcontinued := List.find?_some hfirst
      exact absurd hcontinued (by simp [hnone lexeme (List.mem_of_find?_eq_some hfirst)])
    · rintro _ ⟨⟩
      exact hopen

/-- The raw key has a line break inside, and nothing else in this table has. -/
theorem phrases_withReturns_raw_key :
    '\r' ∉ "m\x7b\n// above\n`a\nb`: `c\nd`,\n\x7d".toList ∧
      phrases "m\x7b\n// above\n`a\nb`: `c\nd`,\n\x7d" = .ok [.keyed "a\nb" "c\nd" (some "above") 3] ∧
      phrases (withReturns "m\x7b\n// above\n`a\nb`: `c\nd`,\n\x7d") =
        .ok [.keyed "a\r\nb" "c\nd" (some "above") 3] ∧
      ∃ lexemes, read "m\x7b\n// above\n`a\nb`: `c\nd`,\n\x7d" = .ok lexemes ∧
        ¬ ((∀ lexeme ∈ lexemes, lexeme.isContinued = false) ∧
          ∀ entry ∈ entries lexemes, ∀ phrase, phrase? (Constant.all lexemes) entry = some phrase →
            (∀ key ∈ phrase.key, '\n' ∉ key) ∧ ∀ comment ∈ entry.comments, '\n' ∉ comment) := by
  have hreturns : '\r' ∉ "m\x7b\n// above\n`a\nb`: `c\nd`,\n\x7d".toList := by decide
  have hfound : phrases "m\x7b\n// above\n`a\nb`: `c\nd`,\n\x7d" =
      .ok [.keyed "a\nb" "c\nd" (some "above") 3] := by
    decide +kernel
  have hreturned : phrases (withReturns "m\x7b\n// above\n`a\nb`: `c\nd`,\n\x7d") =
      .ok [.keyed "a\r\nb" "c\nd" (some "above") 3] := by
    decide +kernel
  obtain ⟨lexemes, hread, hsame, -⟩ := phrases_withReturns hreturns hfound
  refine ⟨hreturns, hfound, hreturned, lexemes, hread, mt hsame.mpr ?_⟩
  rw [hreturned]
  decide

end GoMap

end Table

end Phrasebook
