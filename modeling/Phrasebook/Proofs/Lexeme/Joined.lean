import Phrasebook.Proofs.Lexeme.Segmentation
import Phrasebook.Proofs.Outcome

/-!
# Tokens on lines of their own

A line break makes no token longer, and spacing is dropped. So tokens that are joined by line breaks are read
as they are, whatever kinds stand side by side and however many lines one of them has.
-/

namespace Phrasebook.Lexeme

open Text

def word (lexeme : Lexeme) : Word := ⟨lexeme.kind, lexeme.text⟩

/-- The text with each word on a line of its own. -/
def writeLines (words : List Word) : Text := join "\n" (words.map Word.text)

theorem stopsAt_newline (word : Word) : word.StopsAt '\n' := by
  obtain ⟨kind, text⟩ := word
  have hkind : kind.goesOn '\n' = false := by cases kind <;> rfl
  exact ⟨hkind, fun _ => by decide⟩

theorem writeLines_cons_cons (first second : Word) (others : List Word) :
    writeLines (first :: second :: others) = first.text ++ '\n' :: writeLines (second :: others) :=
  join_cons_cons ..

section

variable {words : List Word} {source : Text} {lexemes : List Lexeme}

theorem readFrom_writeLines (h : ∀ word ∈ words, IsToken word.kind word.text) (position : Position) :
    (readFrom position (writeLines words)).map (List.map word) = .ok words := by
  induction words generalizing position with
  | nil =>
    have hnone : writeLines [] = [] := rfl
    rw [hnone, readFrom_nil]
    rfl
  | cons first others ih =>
    obtain ⟨hfirst, hothers⟩ := List.forall_mem_cons.mp h
    cases others with
    | nil =>
      have hends : first.EndsBefore [] := (endsBefore_iff hfirst).mpr (by simp)
      have hlast : writeLines [first] = first.text ++ [] := by simp [writeLines, join]
      rw [hlast, readFrom_word hends, readFrom_nil]
      rfl
    | cons second others =>
      have hends : first.EndsBefore ('\n' :: writeLines (second :: others)) := by
        refine (endsBefore_iff hfirst).mpr ?_
        rintro _ ⟨⟩
        exact stopsAt_newline first
      obtain ⟨lexemes, hread, hwords⟩ :=
        map_eq_ok.mp (ih hothers ((position.advance first.text).advance ['\n']))
      rw [writeLines_cons_cons, readFrom_word hends, readFrom_spacing (by decide), hread, ← hwords]
      rfl

theorem isToken_of_readAll (h : readAll source = .ok lexemes) :
    ∀ lexeme ∈ lexemes, IsToken lexeme.word.kind lexeme.word.text := by
  obtain ⟨stop, hsegmented⟩ := readFrom_eq_ok_iff.mp h
  intro lexeme hlexeme
  obtain ⟨behind, hleads, -⟩ := hsegmented.inPlace.places lexeme hlexeme
  exact hleads.token

end

/-- Words on lines of their own are read as these words exactly if each is a complete token of its kind. So
reading a source and writing its tokens on lines gives a source with the same tokens. -/
theorem readAll_writeLines :
    (∀ words : List Word, (readAll (writeLines words)).map (List.map word) = .ok words ↔
      ∀ word ∈ words, IsToken word.kind word.text) ∧
    ∀ source lexemes, readAll source = .ok lexemes →
      (readAll (writeLines (lexemes.map word))).map (List.map word) = .ok (lexemes.map word) := by
  constructor
  · refine fun words => ⟨fun h => ?_, fun h => readFrom_writeLines h .start⟩
    obtain ⟨lexemes, hread, rfl⟩ := map_eq_ok.mp h
    exact List.forall_mem_map.mpr (isToken_of_readAll hread)
  · intro source lexemes h
    exact readFrom_writeLines (List.forall_mem_map.mpr (isToken_of_readAll h)) .start

/-- A slash before a comment, marks of comments in a literal and in a comment, and a literal on two lines. -/
theorem readAll_writeLines_slash :
    let words : List Word := [⟨.punctuation, "/"⟩, ⟨.blockComment, "/*\n//*/"⟩, ⟨.quoted .double, "\"/*\\\n\""⟩,
      ⟨.lineComment, "///*"⟩, ⟨.punctuation, "/"⟩]
    (∀ word ∈ words, IsToken word.kind word.text) ∧
      (readAll (writeLines words)).map (List.map word) = .ok words := by
  intro words
  have hcomment : IsToken .blockComment "/*\n//*/" :=
    @IsToken.blockComment "\n//" (by decide)
  have hliteral : IsToken (.quoted .double) "\"/*\\\n\"" :=
    @IsToken.quoted .double "/*\\\n" (by decide)
      (.plain (by decide) (by decide) (by decide) (.plain (by decide) (by decide) (by decide)
        (.escaped '\n' .nil)))
  have hline : IsToken .lineComment "///*" := @IsToken.lineComment "/*" (by decide)
  have htokens : ∀ word ∈ words, IsToken word.kind word.text := by
    simp only [words, List.forall_mem_cons]
    exact ⟨.punctuation (by decide), hcomment, hliteral, hline, .punctuation (by decide), by simp⟩
  exact ⟨htokens, (readAll_writeLines.1 words).mpr htokens⟩

end Phrasebook.Lexeme
