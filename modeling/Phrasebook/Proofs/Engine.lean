import Phrasebook.Engine
import Phrasebook.Proofs.Page.Place

/-!
# What all engines report

A fault and the line of a phrase are shown to the user as places in the file. They are such places,
whichever engine reads the file and however deep inside it the reader was.
-/

namespace Phrasebook.Engine

open Table (Entry entries)

/-- The phrases of a table, entry by entry: `phrase?` is what the engine makes of an entry. -/
theorem isAt_of_entries {source : Text} {lexemes : List Lexeme} (h : Table.read source = .ok lexemes)
    {phrase? : Entry → Option Phrase}
    (hline : ∀ entry phrase, phrase? entry = some phrase → phrase.line = entry.key.lexeme.line) :
    ∀ entry ∈ entries lexemes, ∀ phrase, phrase? entry = some phrase → entry.IsAt source phrase := by
  intro entry hentry phrase hphrase
  obtain ⟨behind, hplace⟩ := Table.key_pointsAt h entry hentry
  exact ⟨behind, hplace, hline entry phrase hphrase⟩

theorem isIn_of_phrases_error {rules : Rules} {source : Text} {engine : Engine} {fault : Fault}
    (h : engine.phrases rules source = .error fault) : fault.position.IsIn source := by
  cases engine with
  | literalTable => exact Table.isIn_of_read_error (map_eq_error.mp h)
  | goTable => exact Table.isIn_of_read_error (map_eq_error.mp h)
  | markup => exact Page.isIn_of_phrases_error h

/-- A fault is at a character of the source and names its line, and a phrase has the line on which
begins what it was taken from: the key of its entry, its element, or its literal. -/
theorem places_true (rules : Rules) (source : Text) :
    (∀ engine fault, phrases rules source engine = .error fault →
      fault.position.IsIn source ∧ fault.position.offset < Text.byteLength source ∧
        fault.position.line = Text.lineOf source fault.position.offset) ∧
    (∀ records, phrases rules source .literalTable = .ok records →
      ∃ lexemes, Table.read source = .ok lexemes ∧
        records = (entries lexemes).filterMap Table.Plain.phrase? ∧
        ∀ entry ∈ entries lexemes, ∀ record, Table.Plain.phrase? entry = some record →
          entry.IsAt source record) ∧
    (∀ records, phrases rules source .goTable = .ok records →
      ∃ lexemes, Table.read source = .ok lexemes ∧
        let phrase? := Table.GoMap.phrase? (Table.Constant.all lexemes)
        records = (entries lexemes).filterMap phrase? ∧
        ∀ entry ∈ entries lexemes, ∀ record, phrase? entry = some record → entry.IsAt source record) ∧
    ∀ records, phrases rules source .markup = .ok records →
      ∃ forest harvested, Markup.Forest.ofSource source = .ok forest ∧
        Page.harvest rules forest = .ok harvested ∧ harvested.map Prod.snd = records ∧
        ∀ site record, (site, record) ∈ harvested → site.IsAt source record := by
  refine ⟨?_, ?_, ?_, ?_⟩
  · intro engine fault h
    have hin := isIn_of_phrases_error h
    exact ⟨hin, hin.offset_lt, hin.line_eq⟩
  · intro records h
    obtain ⟨lexemes, hread, hrecords⟩ := map_eq_ok.mp h
    exact ⟨lexemes, hread, hrecords.symm,
      isAt_of_entries hread fun _ _ => Table.Plain.line_of_phrase?⟩
  · intro records h
    obtain ⟨lexemes, hread, hrecords⟩ := map_eq_ok.mp h
    exact ⟨lexemes, hread, hrecords.symm,
      isAt_of_entries hread fun _ _ => Table.GoMap.line_of_phrase?⟩
  · intro records h
    obtain ⟨forest, harvested, hforest, hharvest, hrecords⟩ := Page.harvest_of_phrases h
    refine ⟨forest, harvested, hforest, hharvest, hrecords, ?_⟩
    intro site record hin
    obtain ⟨hsite, here, hyield, hrecord⟩ := Page.mem_of_gather hharvest hin
    exact Page.isAt_of_yield hforest hsite hyield record hrecord

end Phrasebook.Engine
