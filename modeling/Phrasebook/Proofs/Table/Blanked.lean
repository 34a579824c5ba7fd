import Mathlib.Control.Monad.Basic
import Phrasebook.Proofs.Lexeme.Blanked
import Phrasebook.Proofs.Table.ObjectLiteral
import Phrasebook.Proofs.Table.Place

/-!
# Tables with blanked comments

Brackets, entries and constants are looked for among the lexemes that are no comments. So whatever a
table's comments say, and wherever they stand, they are seen in hints alone.
-/

namespace Phrasebook.Table

open Lexeme

/-! ## Reading -/

theorem withoutComments_withoutComments (lexemes : List Lexeme) :
    withoutComments (withoutComments lexemes) = withoutComments lexemes := by
  simp [withoutComments]

theorem read_blanked {source : Text} {lexemes : List Lexeme} (h : readAll source = .ok lexemes) :
    read (blanked lexemes source) = (read source).map withoutComments := by
  have hbalance : checkBalance (withoutComments lexemes) = checkBalance lexemes :=
    checkFrom_withoutComments [] lexemes
  rw [read, read, readAll_blanked h, h]
  change (do checkBalance (withoutComments lexemes); pure (withoutComments lexemes)) =
    Except.map withoutComments (do checkBalance lexemes; pure lexemes)
  rw [hbalance]
  cases checkBalance lexemes <;> rfl

/-! ## Entries -/

theorem GoMap.phrase?_bare (constants : List Constant) (entry : Entry) :
    phrase? constants entry.bare = (phrase? constants entry).map Phrase.withoutHint := by
  have hkey : entry.bare.key.lexeme = entry.key.lexeme := rfl
  have hvalue : entry.bare.value.lexeme = entry.value.lexeme := rfl
  unfold phrase?
  rw [hkey, hvalue]
  cases key? constants entry.key.lexeme with
  | none => rfl
  | some key => cases value? entry.value.lexeme <;> rfl

theorem trailingComment_eq_none {placed : Placed}
    (h : ∀ lexeme ∈ placed.behind, lexeme.isComment = false) : placed.trailingComment = none := by
  unfold Placed.trailingComment
  split
  · rfl
  · rename_i next others hbehind
    rw [hbehind, List.forall_mem_cons] at h
    split
    · cases others with
      | nil => rfl
      | cons candidate _ => simp [h.2 candidate List.mem_cons_self]
    · simp [hbehind, h.1]

theorem leadingComments_eq_nil {placed : Placed}
    (h : ∀ lexeme ∈ placed.before, lexeme.isComment = false) : placed.leadingComments = [] := by
  unfold Placed.leadingComments
  cases hbefore : placed.before with
  | nil => rfl
  | cons candidate before =>
    have hcandidate := h candidate (by rw [hbefore]; exact List.mem_cons_self)
    simp [commentsAbove, hcandidate]

/-- Among lexemes without comments no entry has a hint. -/
theorem hintless_of_mem_entries {lexemes : List Lexeme}
    (h : ∀ lexeme ∈ lexemes, lexeme.isComment = false) : ∀ entry ∈ entries lexemes,
      entry.trailingComment = none ∧ entry.leadingComments = [] := by
  intro entry hentry
  obtain ⟨hkey, hvalue⟩ := mem_of_mem_entriesOfCode hentry
  have hkey' : entry.key ∈ placed lexemes := (List.mem_filter.mp hkey).1
  have hvalue' : entry.value ∈ placed lexemes := (List.mem_filter.mp hvalue).1
  constructor
  · exact trailingComment_eq_none fun lexeme hin => h lexeme (mem_of_mem_around hvalue' (.inr hin))
  · exact leadingComments_eq_nil fun lexeme hin => h lexeme (mem_of_mem_around hkey' (.inl hin))

/-- Without its comments, a table has the same phrases without hints. -/
theorem phrases_withoutComments {phrase? : Entry → Option Phrase}
    (hbare : ∀ entry, phrase? entry.bare = (phrase? entry).map Phrase.withoutHint)
    (hhint : ∀ entry phrase, entry.trailingComment = none → entry.leadingComments = [] →
      phrase? entry = some phrase → phrase.hint = none) (lexemes : List Lexeme) :
    (entries (withoutComments lexemes)).filterMap phrase? =
      ((entries lexemes).filterMap phrase?).map Phrase.withoutHint := by
  have hnone : ∀ lexeme ∈ withoutComments lexemes, lexeme.isComment = false := by
    intro lexeme hlexeme
    simpa using (List.mem_filter.mp hlexeme).2
  have hsame : ((entries (withoutComments lexemes)).filterMap phrase?).map Phrase.withoutHint =
      (entries (withoutComments lexemes)).filterMap phrase? := by
    refine (List.map_congr_left ?_).trans (List.map_id _)
    intro phrase hphrase
    obtain ⟨entry, hentry, hsome⟩ := List.mem_filterMap.mp hphrase
    obtain ⟨htrailing, hleading⟩ := hintless_of_mem_entries hnone entry hentry
    have hnohint := hhint entry phrase htrailing hleading hsome
    obtain ⟨key, value, hint, kind, line⟩ := phrase
    cases hnohint
    rfl
  rw [← hsame, withoutHint_entries hbare, withoutHint_entries hbare, withoutComments_withoutComments]

/-! ## Whole tables -/

theorem Plain.hint_of_phrase? {entry : Entry} {phrase : Phrase}
    (htrailing : entry.trailingComment = none) (h : phrase? entry = some phrase) :
    phrase.hint = none := by
  obtain ⟨-, -, rfl⟩ := phrase?_eq_some h
  exact htrailing

theorem GoMap.hint_of_phrase? {constants : List Constant} {entry : Entry} {phrase : Phrase}
    (htrailing : entry.trailingComment = none) (hleading : entry.leadingComments = [])
    (h : phrase? constants entry = some phrase) : phrase.hint = none := by
  obtain ⟨key, value, -, -, rfl⟩ := phrase?_eq_some h
  rw [htrailing, hleading]
  rfl

/-- What a table is read as with its comments blanked, where `phrase?` makes a phrase of an entry with the
constants among the lexemes. -/
theorem map_read_blanked (phrase? : List Lexeme → Entry → Option Phrase) {source : Text}
    {lexemes : List Lexeme} (h : readAll source = .ok lexemes)
    (hconstants : phrase? (withoutComments lexemes) = phrase? lexemes)
    (hentries : (entries (withoutComments lexemes)).filterMap (phrase? lexemes) =
      ((entries lexemes).filterMap (phrase? lexemes)).map Phrase.withoutHint) :
    ((read (blanked lexemes source)).map fun all => (entries all).filterMap (phrase? all)) =
      ((read source).map fun all => (entries all).filterMap (phrase? all)).map
        (List.map Phrase.withoutHint) := by
  rw [read_blanked h]
  cases hread : read source with
  | error fault => rfl
  | ok all =>
    obtain rfl : lexemes = all := Except.ok.inj (h.symm.trans (read_eq_ok hread))
    have hphrases : (entries (withoutComments lexemes)).filterMap (phrase? (withoutComments lexemes)) =
        ((entries lexemes).filterMap (phrase? lexemes)).map Phrase.withoutHint := by
      rw [hconstants, hentries]
    exact congrArg Except.ok hphrases

/-- Blanking the comments of a source takes the hints from its phrases and changes nothing else: a fault of
the brackets stays the same in the same place, and so do keys, values and lines. -/
theorem phrases_blanked {source : Text} {lexemes : List Lexeme} (h : readAll source = .ok lexemes) :
    Plain.phrases (blanked lexemes source) =
        (Plain.phrases source).map (List.map Phrase.withoutHint) ∧
      GoMap.phrases (blanked lexemes source) =
        (GoMap.phrases source).map (List.map Phrase.withoutHint) := by
  constructor
  · exact map_read_blanked (fun _ => Plain.phrase?) h rfl
      (phrases_withoutComments phrase?_bare (fun _ _ ht _ => Plain.hint_of_phrase? ht) lexemes)
  · have hconstants : Constant.all (withoutComments lexemes) = Constant.all lexemes :=
      congrArg (Constant.declared .outside) (withoutComments_withoutComments lexemes)
    exact map_read_blanked (fun all => GoMap.phrase? (Constant.all all)) h
      (congrArg GoMap.phrase? hconstants)
      (phrases_withoutComments (GoMap.phrase?_bare _) (fun _ _ => GoMap.hint_of_phrase?) lexemes)

/-- A comment may hold brackets and quotes, and span lines. -/
theorem phrases_blanked_call :
    ∃ lexemes, readAll "f(\x7b/* a:\n \" \x7d */ \"k\": // é \x7b\n\"v\" /* b */\x7d)" = .ok lexemes ∧
      blanked lexemes "f(\x7b/* a:\n \" \x7d */ \"k\": // é \x7b\n\"v\" /* b */\x7d)" =
        "f(\x7b     \n        \"k\":        \n\"v\"        \x7d)" ∧
      GoMap.phrases "f(\x7b/* a:\n \" \x7d */ \"k\": // é \x7b\n\"v\" /* b */\x7d)" =
        .ok [.keyed "k" "v" (some "b") 2] ∧
      GoMap.phrases "f(\x7b     \n        \"k\":        \n\"v\"        \x7d)" =
        .ok [.keyed "k" "v" none 2] := by
  have hblanked : ((readAll "f(\x7b/* a:\n \" \x7d */ \"k\": // é \x7b\n\"v\" /* b */\x7d)").map fun lexemes =>
      blanked lexemes "f(\x7b/* a:\n \" \x7d */ \"k\": // é \x7b\n\"v\" /* b */\x7d)") =
        .ok "f(\x7b     \n        \"k\":        \n\"v\"        \x7d)" := by
    decide +kernel
  have hphrases : GoMap.phrases "f(\x7b/* a:\n \" \x7d */ \"k\": // é \x7b\n\"v\" /* b */\x7d)" =
      .ok [.keyed "k" "v" (some "b") 2] := by
    decide +kernel
  obtain ⟨lexemes, hread, htext⟩ := map_eq_ok.mp hblanked
  have hsame := (phrases_blanked hread).2
  rw [htext, hphrases] at hsame
  exact ⟨lexemes, hread, htext, hphrases, hsame⟩

end Phrasebook.Table
