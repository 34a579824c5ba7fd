import Phrasebook.Lexeme.Reader
import Phrasebook.Proofs.Table.Place

/-!
# Which lexemes are entries

An entry is five lexemes in a row, comments left out. What closes one entry may open the next, and any
lexeme may be a value, but all keys and values stand one behind the other: a key opens nothing, and
what closes an entry is no key.
-/

namespace Phrasebook.Table

open Lexeme

/-- The lexemes that are no comments, with their numbers among all. -/
def numberedCode (lexemes : List Lexeme) : List (Lexeme × Nat) :=
  lexemes.zipIdx.filter fun (lexeme, _) => !lexeme.isComment

/-- The lexemes with these numbers are the key and the value of an entry. -/
inductive IsEntryAt (lexemes : List Lexeme) : (key value : Nat) → Prop where
  | inRow {before key colon value behind : Lexeme × Nat}
      (row : [before, key, colon, value, behind] <:+: numberedCode lexemes)
      (opens : before.1.kind = .opening .brace ∨ before.1.kind = .comma)
      (names : (∃ quote, key.1.kind = .quoted quote) ∨ key.1.kind = .identifier)
      (gives : colon.1.kind = .colon)
      (closes : behind.1.kind = .comma ∨ behind.1.kind = .closing .brace) :
      IsEntryAt lexemes key.2 value.2

/-! ## Kinds -/

section

variable {kind : Kind}

theorem opensEntry_iff : opensEntry kind = true ↔ kind = .opening .brace ∨ kind = .comma := by
  simp [opensEntry]

theorem closesEntry_iff : closesEntry kind = true ↔ kind = .comma ∨ kind = .closing .brace := by
  simp [closesEntry, or_comm]

theorem isKey_iff : isKey kind = true ↔ (∃ quote, kind = .quoted quote) ∨ kind = .identifier := by
  cases kind <;> simp [isKey, Kind.isQuoted]

/-- A key opens no entry. -/
theorem not_opensEntry_of_isKey (h : isKey kind = true) : opensEntry kind = false := by
  rcases isKey_iff.mp h with ⟨quote, rfl⟩ | rfl <;> rfl

/-- What closes an entry is no key. -/
theorem not_isKey_of_closesEntry (h : closesEntry kind = true) : isKey kind = false := by
  rcases closesEntry_iff.mp h with rfl | rfl <;> rfl

end

/-! ## Five in a row -/

/-- The five lexemes around the colon of an entry. -/
structure Entry.Row (entry : Entry) (before colon behind : Placed) : Prop where
  opens : opensEntry before.lexeme.kind = true
  names : isKey entry.key.lexeme.kind = true
  gives : colon.lexeme.kind = .colon
  closes : closesEntry behind.lexeme.kind = true

section

variable {code rest : List Placed} {entry : Entry} {placed before colon behind : Placed}

theorem Entry.Row.atFront?_eq (h : entry.Row before colon behind) (rest : List Placed) :
    atFront? (before :: entry.key :: colon :: entry.value :: behind :: rest) = some entry :=
  if_pos ⟨h.opens, h.names, h.gives, h.closes⟩

theorem atFront?_of_not_opens (h : opensEntry placed.lexeme.kind = false) (rest : List Placed) :
    Entry.atFront? (placed :: rest) = none := by
  refine Option.eq_none_iff_forall_ne_some.mpr fun entry hentry => ?_
  obtain ⟨before, colon, behind, others, heq, hopens, -⟩ := Entry.atFront?_eq_some hentry
  rw [(List.cons.inj heq).1, hopens] at h
  cases h

theorem atFront?_of_not_isKey (h : isKey placed.lexeme.kind = false) (before : Placed)
    (rest : List Placed) : Entry.atFront? (before :: placed :: rest) = none := by
  refine Option.eq_none_iff_forall_ne_some.mpr fun entry hentry => ?_
  obtain ⟨_, colon, behind, others, heq, -, hkey, -⟩ := Entry.atFront?_eq_some hentry
  rw [(List.cons.inj (List.cons.inj heq).2).1, hkey] at h
  cases h

theorem entriesOfCode_of_none (h : Entry.atFront? (placed :: rest) = none) :
    entriesOfCode (placed :: rest) = entriesOfCode rest := by
  rw [entriesOfCode, h]
  rfl

theorem mem_entriesOfCode_iff : entry ∈ entriesOfCode code ↔ ∃ before colon behind,
    [before, entry.key, colon, entry.value, behind] <:+: code ∧ entry.Row before colon behind := by
  constructor
  · intro h
    obtain ⟨front, before, colon, behind, rest, rfl, hopens, hkey, hcolon, hcloses⟩ :=
      exists_of_mem_entriesOfCode h
    exact ⟨before, colon, behind, ⟨front, rest, by simp⟩, hopens, hkey, hcolon, hcloses⟩
  · rintro ⟨before, colon, behind, ⟨front, rest, rfl⟩, hrow⟩
    rw [List.append_assoc]
    induction front with
    | nil =>
      rw [List.nil_append, List.cons_append, entriesOfCode]
      exact List.mem_append_left _ (Option.mem_toList.mpr (hrow.atFront?_eq rest))
    | cons first front ih => exact List.mem_append_right _ ih

/-! ## One behind the other -/

/-- The next entry begins at the earliest with what closes this one. -/
theorem Entry.Row.entriesOfCode_eq (h : entry.Row before colon behind) (rest : List Placed) :
    entriesOfCode (before :: entry.key :: colon :: entry.value :: behind :: rest) =
      entry :: entriesOfCode (behind :: rest) := by
  have hcolon : opensEntry colon.lexeme.kind = false := by rw [h.gives]; rfl
  rw [entriesOfCode, h.atFront?_eq rest,
    entriesOfCode_of_none (atFront?_of_not_opens (not_opensEntry_of_isKey h.names) _),
    entriesOfCode_of_none (atFront?_of_not_opens hcolon _),
    entriesOfCode_of_none (atFront?_of_not_isKey (not_isKey_of_closesEntry h.closes) _ _)]
  rfl

/-- The key and the value, in the order in which they stand. -/
def Entry.parts (entry : Entry) : List Placed := [entry.key, entry.value]

/-- The keys and values of all entries stand in the code in this order, behind the first lexeme. -/
theorem parts_sublist (code : List Placed) :
    ((entriesOfCode code).flatMap Entry.parts).Sublist code.tail := by
  induction hlength : code.length using Nat.strongRecOn generalizing code with
  | ind length ih =>
    subst hlength
    cases code with
    | nil => exact .slnil
    | cons placed rest =>
      cases hfront : Entry.atFront? (placed :: rest) with
      | none =>
        rw [entriesOfCode_of_none hfront]
        exact (ih rest.length (by simp) rest rfl).trans (List.tail_sublist rest)
      | some entry =>
        obtain ⟨before, colon, behind, later, heq, hopens, hkey, hcolon, hcloses⟩ :=
          Entry.atFront?_eq_some hfront
        have hrow : entry.Row before colon behind := ⟨hopens, hkey, hcolon, hcloses⟩
        have hlater := ih (behind :: later).length (by simp [heq]) (behind :: later) rfl
        rw [heq, hrow.entriesOfCode_eq, List.flatMap_cons]
        exact .cons_cons _ (.cons _ (.cons_cons _ (.cons _ hlater)))

end

/-! ## Numbers -/

theorem zipIdx_eq_placed (lexemes : List Lexeme) :
    lexemes.zipIdx = (placed lexemes).map fun placed => (placed.lexeme, placed.index) := by
  have hfrom : ∀ before : List Lexeme, lexemes.zipIdx before.length =
      (placedAfter before lexemes).map fun placed => (placed.lexeme, placed.index) := by
    induction lexemes with
    | nil => exact fun _ => rfl
    | cons lexeme behind ih => exact fun before => congrArg _ (ih (lexeme :: before))
  exact hfrom []

theorem numberedCode_eq (lexemes : List Lexeme) :
    numberedCode lexemes = (code lexemes).map fun placed => (placed.lexeme, placed.index) := by
  rw [numberedCode, zipIdx_eq_placed, List.filter_map]
  rfl

/-- Lexemes are numbered one behind the other. -/
theorem pairwise_index_placed (lexemes : List Lexeme) :
    (placed lexemes).Pairwise fun first second => first.index < second.index := by
  have hnumbers : (placed lexemes).map Placed.index = List.range' 0 lexemes.length := by
    rw [← List.zipIdx_map_snd, zipIdx_eq_placed, List.map_map]
    rfl
  rw [← List.pairwise_map, hnumbers]
  exact List.pairwise_lt_range'

theorem isEntryAt_iff {lexemes : List Lexeme} {key value : Nat} :
    IsEntryAt lexemes key value ↔ (key, value) ∈ (entries lexemes).map Entry.numbers := by
  rw [List.mem_map]
  constructor
  · rintro ⟨row, opens, names, gives, closes⟩
    rw [numberedCode_eq] at row
    obtain ⟨five, hfive, hrow⟩ := List.infix_map_iff.mp row
    have hnamed := hrow.symm
    simp only [List.map_eq_cons_iff, List.map_eq_nil_iff] at hnamed
    obtain ⟨before, _, rfl, rfl, key, _, rfl, rfl, colon, _, rfl, rfl, value, _, rfl, rfl, behind, _, rfl,
      rfl, rfl⟩ := hnamed
    exact ⟨⟨key, value⟩, mem_entriesOfCode_iff.mpr ⟨before, colon, behind, hfive,
      opensEntry_iff.mpr opens, isKey_iff.mpr names, gives, closesEntry_iff.mpr closes⟩, rfl⟩
  · rintro ⟨entry, hentry, heq⟩
    obtain ⟨before, colon, behind, hfive, hrow⟩ := mem_entriesOfCode_iff.mp hentry
    cases heq
    have row := hfive.map fun placed => (placed.lexeme, placed.index)
    rw [← numberedCode_eq] at row
    exact .inRow row (opensEntry_iff.mp hrow.opens) (isKey_iff.mp hrow.names) hrow.gives
      (closesEntry_iff.mp hrow.closes)

/-- The keys and values of all entries are lexemes in their places, in this order. -/
theorem parts_sublist_placed (lexemes : List Lexeme) :
    ((entries lexemes).flatMap Entry.parts).Sublist (placed lexemes) :=
  ((parts_sublist (code lexemes)).trans (List.tail_sublist _)).trans List.filter_sublist

theorem pairwise_numbers (lexemes : List Lexeme) :
    ((entries lexemes).flatMap fun entry => [entry.key.index, entry.value.index]).Pairwise (· < ·) := by
  have hindices := (pairwise_index_placed lexemes).sublist (parts_sublist_placed lexemes)
  rwa [← List.pairwise_map, List.map_flatMap] at hindices

/-- The first entry stands before the second one: keys before keys, values before values, and its value
before the other's key. -/
structure Entry.Precedes (first second : Entry) : Prop where
  keys : first.key.index < second.key.index
  values : first.value.index < second.value.index
  apart : first.value.index < second.key.index

theorem pairwise_precedes (lexemes : List Lexeme) : (entries lexemes).Pairwise Entry.Precedes := by
  refine (List.pairwise_flatMap.mp (pairwise_numbers lexemes)).2.imp fun h => ?_
  exact ⟨h _ (by simp) _ (by simp), h _ (by simp) _ (by simp), h _ (by simp) _ (by simp)⟩

/-! ## All entries -/

/-- The entries of any list of lexemes are exactly the fives in a row, in ascending order. The value of one
stands before the key of the next, no lexeme is a key or value twice, and each is in the place that its number
tells. -/
theorem entries_exact (lexemes : List Lexeme) :
    (∀ key value, (key, value) ∈ (entries lexemes).map Entry.numbers ↔ IsEntryAt lexemes key value) ∧
      (entries lexemes).Pairwise (fun first second =>
        first.key.index < second.key.index ∧ first.value.index < second.value.index) ∧
      (entries lexemes).Pairwise (fun first second => first.value.index < second.key.index) ∧
      ((entries lexemes).flatMap fun entry => [entry.key.index, entry.value.index]).Nodup ∧
      ((entries lexemes).flatMap Entry.parts).Sublist (placed lexemes) := by
  have horder := pairwise_precedes lexemes
  exact ⟨fun key value => isEntryAt_iff.symm, horder.imp fun h => ⟨h.keys, h.values⟩,
    horder.imp Entry.Precedes.apart, (pairwise_numbers lexemes).imp Nat.ne_of_lt,
    parts_sublist_placed lexemes⟩

/-- What closes an entry opens the next one, and a separator, a brace or a colon may be a value. -/
example : (readAll "\x7ba: , , b: \x7d, c: :\x7d").map (fun lexemes => (entries lexemes).map Entry.numbers) =
    .ok [(1, 3), (5, 7), (9, 11)] := by decide +kernel

end Phrasebook.Table
