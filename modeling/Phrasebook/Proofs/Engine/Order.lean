import Phrasebook.Engine
import Phrasebook.Proofs.Page.Order

/-!
# Phrases come in the order of their source

A file of translations keeps the order of its source, so whatever engine reads a source, its phrases come
in the order of what they are taken from.
-/

namespace Phrasebook.Engine

variable {rules : Rules} {source : Text} {records : List Phrase}

theorem exists_ordered_literalTable (h : phrases rules source .literalTable = .ok records) :
    ∃ lexemes origins, Table.read source = .ok lexemes ∧
      Table.Ordered Table.Plain.phrase? lexemes origins records := by
  obtain ⟨lexemes, hread, rfl⟩ := map_eq_ok.mp h
  obtain ⟨origins, hordered⟩ := Table.exists_ordered_entries hread _
  exact ⟨lexemes, origins, hread, hordered⟩

theorem exists_ordered_goTable (h : phrases rules source .goTable = .ok records) :
    ∃ lexemes origins, Table.read source = .ok lexemes ∧
      Table.Ordered (Table.GoMap.phrase? (Table.Constant.all lexemes)) lexemes origins records := by
  obtain ⟨lexemes, hread, rfl⟩ := map_eq_ok.mp h
  obtain ⟨origins, hordered⟩ := Table.exists_ordered_entries hread _
  exact ⟨lexemes, origins, hread, hordered⟩

theorem lines_pairwise {engine : Engine} (h : phrases rules source engine = .ok records) :
    (records.map Phrase.line).Pairwise (· ≤ ·) := by
  cases engine with
  | literalTable =>
    obtain ⟨lexemes, origins, hread, hordered⟩ := exists_ordered_literalTable h
    exact hordered.lines hread fun _ _ => Table.Plain.line_of_phrase?
  | goTable =>
    obtain ⟨lexemes, origins, hread, hordered⟩ := exists_ordered_goTable h
    exact hordered.lines hread fun _ _ => Table.GoMap.line_of_phrase?
  | markup =>
    obtain ⟨-, -, -, -, -, -, hlines⟩ := Page.exists_ordered h
    exact hlines

/-- The lines of phrases do not decrease, with any engine. The keys of a table have increasing offsets. On
a page the nodes have numbers that do not decrease; the phrases of one element follow its attributes, and
those of one block its literals. -/
theorem phrases_in_order (rules : Rules) (source : Text) :
    (∀ engine records, phrases rules source engine = .ok records →
      (records.map Phrase.line).Pairwise (· ≤ ·)) ∧
    (∀ records, phrases rules source .literalTable = .ok records →
      ∃ lexemes origins, Table.read source = .ok lexemes ∧
        Table.Ordered Table.Plain.phrase? lexemes origins records) ∧
    (∀ records, phrases rules source .goTable = .ok records →
      ∃ lexemes origins, Table.read source = .ok lexemes ∧
        Table.Ordered (Table.GoMap.phrase? (Table.Constant.all lexemes)) lexemes origins records) ∧
    ∀ records, phrases rules source .markup = .ok records →
      ∃ forest origins harvested, Markup.Forest.ofSource source = .ok forest ∧
        Page.Ordered rules forest origins harvested ∧ harvested.map Prod.snd = records := by
  refine ⟨fun _ _ => lines_pairwise, fun _ => exists_ordered_literalTable,
    fun _ => exists_ordered_goTable, ?_⟩
  intro records h
  obtain ⟨forest, origins, harvested, hforest, hordered, hrecords, -⟩ := Page.exists_ordered h
  exact ⟨forest, origins, harvested, hforest, hordered, hrecords⟩

end Phrasebook.Engine
