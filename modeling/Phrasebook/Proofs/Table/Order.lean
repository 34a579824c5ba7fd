import Mathlib.Data.List.Flatten
import Phrasebook.Proofs.Table.Entries
import Phrasebook.Proofs.Table.ObjectLiteral

/-!
# The order of entries

Entries are found in one pass, so their keys stand one behind the other, and the lines of their phrases do
not decrease.
-/

namespace Phrasebook.Table

open Lexeme

/-! ## Keys -/

theorem key_lexemes_sublist (lexemes : List Lexeme) :
    ((entries lexemes).map fun entry => entry.key.lexeme).Sublist lexemes := by
  have hkeys : ((entries lexemes).map Entry.key).Sublist ((entries lexemes).flatMap Entry.parts) := by
    rw [List.map_eq_flatMap]
    exact List.Sublist.flatMap_right _ fun entry _ => .cons_cons _ (List.nil_sublist _)
  have hplaced := (hkeys.trans (parts_sublist_placed lexemes)).map (·.lexeme)
  rwa [List.map_map, placed, lexemes_placedAfter] at hplaced

/-- The key of the first entry stands before that of the second. -/
def Entry.Before (first second : Entry) : Prop :=
  first.key.lexeme.position.offset < second.key.lexeme.position.offset

theorem pairwise_before_entries {source : Text} {lexemes : List Lexeme}
    (h : readAll source = .ok lexemes) : (entries lexemes).Pairwise Entry.Before := by
  have hkeys := (pairwise_offset h).sublist (key_lexemes_sublist lexemes)
  rwa [List.pairwise_map] at hkeys

/-! ## Phrases -/

/-- Phrases in the order of the entries that they stem from. -/
structure Ordered (phrase? : Entry → Option Phrase) (lexemes : List Lexeme) (origins : List Entry)
    (phrases : List Phrase) : Prop where
  entries : origins.Sublist (entries lexemes)
  phrases : List.Forall₂ (fun entry phrase => phrase? entry = some phrase) origins phrases
  order : origins.Pairwise Entry.Before

theorem exists_ordered_entries {source : Text} {lexemes : List Lexeme} (h : read source = .ok lexemes)
    (phrase? : Entry → Option Phrase) :
    ∃ origins, Ordered phrase? lexemes origins ((entries lexemes).filterMap phrase?) := by
  obtain ⟨origins, hsub, hphrases⟩ := exists_filterMap phrase? (entries lexemes)
  exact ⟨origins, hsub, hphrases, (pairwise_before_entries (read_eq_ok h)).sublist hsub⟩

/-- Lines follow the order of keys. -/
theorem Ordered.lines {source : Text} {lexemes : List Lexeme} (h : read source = .ok lexemes)
    {phrase? : Entry → Option Phrase}
    (hline : ∀ entry phrase, phrase? entry = some phrase → phrase.line = entry.key.lexeme.line)
    {origins : List Entry} {phrases : List Phrase} (hordered : Ordered phrase? lexemes origins phrases) :
    (phrases.map Phrase.line).Pairwise (· ≤ ·) := by
  have hlines : origins.map (fun entry => entry.key.lexeme.line) = phrases.map Phrase.line :=
    map_eq_map_of_forall₂ (hordered.phrases.imp fun entry phrase h => (hline entry phrase h).symm)
  rw [← hlines, List.pairwise_map]
  refine hordered.order.imp_of_mem fun {a b} ha hb hab => ?_
  obtain ⟨_, hplace⟩ := key_pointsAt h a (hordered.entries.subset ha)
  obtain ⟨_, hplace'⟩ := key_pointsAt h b (hordered.entries.subset hb)
  exact hplace.line_le hplace' (Nat.le_of_lt hab)

end Phrasebook.Table
