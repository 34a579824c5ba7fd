import Phrasebook.Proofs.Lexeme.Placed
import Phrasebook.Proofs.Lexeme.Segmentation
import Phrasebook.Proofs.Outcome
import Phrasebook.Table.GoMap

/-!
# The places in a table

Faults and keys stand where a lexeme of the source stands, or where the reader of lexemes is stuck.
-/

namespace Phrasebook

open Text

namespace Lexeme

/-! ## Faults of lexemes -/

theorem isIn_of_readFrom_error {position : Position} {source whole behind : Text} {fault : Fault}
    (hposition : position.PointsAt whole (source ++ behind))
    (h : readFrom position source = .error fault) : fault.position.IsIn whole := by
  obtain ⟨left, lexemes, hsegmented, hstuck⟩ := readFrom_eq_error_iff.mp h
  exact (hsegmented.pointsAt hposition).1.isIn hstuck.something

theorem pointsAt_of_readFrom {position : Position} {source whole behind : Text}
    {lexemes : List Lexeme} (hposition : position.PointsAt whole (source ++ behind))
    (h : readFrom position source = .ok lexemes) :
    ∀ lexeme ∈ lexemes, IsToken lexeme.kind lexeme.text ∧
      ∃ later, lexeme.position.PointsAt whole (lexeme.text ++ later) := by
  obtain ⟨stop, hsegmented⟩ := readFrom_eq_ok_iff.mp h
  intro lexeme hlexeme
  obtain ⟨later, hleads, hpoints⟩ := (hsegmented.pointsAt hposition).2 lexeme hlexeme
  exact ⟨hleads.token, _, hpoints⟩

/-- The lexemes of a whole source. -/
theorem pointsAt_of_readAll {source : Text} {lexemes : List Lexeme}
    (h : readAll source = .ok lexemes) : ∀ lexeme ∈ lexemes, lexeme.text ≠ [] ∧
      ∃ behind, lexeme.position.PointsAt source (lexeme.text ++ behind) := by
  intro lexeme hlexeme
  obtain ⟨htoken, hpoints⟩ :=
    pointsAt_of_readFrom (Position.pointsAt_start source) h lexeme hlexeme
  obtain ⟨c, inside, htext, -⟩ := taken_of_isToken htoken
  exact ⟨by simp [htext], hpoints⟩

/-- A bracket that does not fit is one of the lexemes, or was open before. -/
theorem position_of_checkFrom {opened : List OpenBracket} {lexemes : List Lexeme} {fault : Fault}
    (h : checkFrom opened lexemes = .error fault) :
    (∃ bracket ∈ opened, bracket.position = fault.position) ∨
      ∃ lexeme ∈ lexemes, lexeme.position = fault.position := by
  fun_induction checkFrom opened lexemes with
  | case1 => cases h
  | case2 innermost outer =>
    cases h
    exact .inl ⟨innermost, List.mem_cons_self, rfl⟩
  | case3 opened lexeme rest bracket hkind ih =>
    rcases ih h with ⟨found, hfound, heq⟩ | ⟨found, hfound, heq⟩
    · rcases List.mem_cons.mp hfound with rfl | hfound
      · exact .inr ⟨lexeme, List.mem_cons_self, heq⟩
      · exact .inl ⟨found, hfound, heq⟩
    · exact .inr ⟨found, List.mem_cons_of_mem _ hfound, heq⟩
  | case4 lexeme rest bracket hkind =>
    cases h
    exact .inr ⟨lexeme, List.mem_cons_self, rfl⟩
  | case5 lexeme rest innermost outer hkind ih =>
    rcases ih h with ⟨found, hfound, heq⟩ | ⟨found, hfound, heq⟩
    · exact .inl ⟨found, List.mem_cons_of_mem _ hfound, heq⟩
    · exact .inr ⟨found, List.mem_cons_of_mem _ hfound, heq⟩
  | case6 lexeme rest bracket hkind innermost outer hne =>
    cases h
    exact .inr ⟨lexeme, List.mem_cons_self, rfl⟩
  | case7 opened lexeme rest hopening hclosing ih =>
    rcases ih h with hbracket | ⟨found, hfound, heq⟩
    · exact .inl hbracket
    · exact .inr ⟨found, List.mem_cons_of_mem _ hfound, heq⟩

end Lexeme

namespace Table

/-! ## Tables -/

theorem read_eq_ok {source : Text} {lexemes : List Lexeme} (h : read source = .ok lexemes) :
    Lexeme.readAll source = .ok lexemes := by
  obtain ⟨all, hread, hchecked⟩ := bind_eq_ok.mp h
  obtain ⟨-, -, hall⟩ := bind_eq_ok.mp hchecked
  cases hall
  exact hread

theorem isIn_of_read_error {source : Text} {fault : Fault} (h : read source = .error fault) :
    fault.position.IsIn source := by
  rcases bind_eq_error.mp h with hread | ⟨lexemes, hread, hchecked⟩
  · exact Lexeme.isIn_of_readFrom_error (Position.pointsAt_start source) hread
  · rcases bind_eq_error.mp hchecked with hcheck | ⟨-, -, hall⟩
    · rcases Lexeme.position_of_checkFrom hcheck with ⟨bracket, hbracket, -⟩ | ⟨lexeme, hlexeme, heq⟩
      · cases hbracket
      · obtain ⟨hne, behind, hpoints⟩ := Lexeme.pointsAt_of_readAll hread lexeme hlexeme
        rw [← heq]
        exact hpoints.isIn hne
    · cases hall

/-! ## Keys -/

/-- The numbers of the key and of the value among the lexemes. -/
def Entry.numbers (entry : Entry) : Nat × Nat := (entry.key.index, entry.value.index)

theorem Entry.atFront?_eq_some {code : List Lexeme.Placed} {entry : Entry}
    (h : Entry.atFront? code = some entry) : ∃ before colon behind rest,
      code = before :: entry.key :: colon :: entry.value :: behind :: rest ∧
        opensEntry before.lexeme.kind ∧ isKey entry.key.lexeme.kind ∧ colon.lexeme.kind = .colon ∧
        closesEntry behind.lexeme.kind := by
  unfold Entry.atFront? at h
  split at h
  · split at h
    · rename_i hkinds
      cases h
      exact ⟨_, _, _, _, rfl, hkinds⟩
    · cases h
  · cases h

/-- An entry is five lexemes of the code, side by side. -/
theorem exists_of_mem_entriesOfCode {code : List Lexeme.Placed} {entry : Entry}
    (h : entry ∈ entriesOfCode code) : ∃ front before colon behind rest,
      code = front ++ before :: entry.key :: colon :: entry.value :: behind :: rest ∧
        opensEntry before.lexeme.kind ∧ isKey entry.key.lexeme.kind ∧ colon.lexeme.kind = .colon ∧
        closesEntry behind.lexeme.kind := by
  induction code with
  | nil => cases h
  | cons placed rest ih =>
    rw [entriesOfCode] at h
    rcases List.mem_append.mp h with hfront | hlater
    · exact ⟨[], Entry.atFront?_eq_some (Option.mem_toList.mp hfront)⟩
    · obtain ⟨front, before, colon, behind, others, rfl, hkinds⟩ := ih hlater
      exact ⟨placed :: front, before, colon, behind, others, rfl, hkinds⟩

theorem mem_of_mem_entriesOfCode {code : List Lexeme.Placed} {entry : Entry}
    (h : entry ∈ entriesOfCode code) : entry.key ∈ code ∧ entry.value ∈ code := by
  obtain ⟨front, before, colon, behind, rest, rfl, -⟩ := exists_of_mem_entriesOfCode h
  simp

/-- The phrase has the line of the entry's key, which stands in the source where it says. -/
def Entry.IsAt (source : Text) (entry : Entry) (phrase : Phrase) : Prop :=
  ∃ behind, entry.key.lexeme.position.PointsAt source (entry.key.lexeme.text ++ behind) ∧
    phrase.line = entry.key.lexeme.position.line

theorem key_pointsAt {source : Text} {lexemes : List Lexeme} (h : read source = .ok lexemes) :
    ∀ entry ∈ entries lexemes, ∃ behind,
      entry.key.lexeme.position.PointsAt source (entry.key.lexeme.text ++ behind) := by
  intro entry hentry
  have hkey : entry.key ∈ code lexemes := (mem_of_mem_entriesOfCode hentry).1
  have hlexeme := Lexeme.mem_of_mem_placedAfter (List.mem_filter.mp hkey).1
  exact (Lexeme.pointsAt_of_readAll (read_eq_ok h) _ hlexeme).2

/-! ## The phrase of an entry -/

theorem Plain.phrase?_eq_some {entry : Entry} {phrase : Phrase} (h : phrase? entry = some phrase) :
    entry.key.lexeme.kind = .quoted .double ∧ entry.value.lexeme.kind = .quoted .double ∧
      phrase = .keyed entry.key.lexeme.body (Escape.decode .cFamily entry.value.lexeme.body)
        entry.trailingComment entry.key.lexeme.line := by
  unfold phrase? at h
  simp only at h
  split at h
  · rename_i hkinds
    exact ⟨hkinds.1, hkinds.2, (Option.some.inj h).symm⟩
  · cases h

theorem GoMap.phrase?_eq_some {constants : List Constant} {entry : Entry} {phrase : Phrase}
    (h : phrase? constants entry = some phrase) : ∃ key value,
      key? constants entry.key.lexeme = some key ∧ value? entry.value.lexeme = some value ∧
      phrase = .keyed key value
        (Phrase.hintOfLines (entry.leadingComments ++ entry.trailingComment.toList))
        entry.key.lexeme.line := by
  obtain ⟨key, hkey, hrest⟩ := Option.bind_eq_some_iff.mp h
  obtain ⟨value, hvalue, heq⟩ := Option.bind_eq_some_iff.mp hrest
  exact ⟨key, value, hkey, hvalue, (Option.some.inj heq).symm⟩

theorem Plain.line_of_phrase? {entry : Entry} {phrase : Phrase} (h : phrase? entry = some phrase) :
    phrase.line = entry.key.lexeme.line := by
  obtain ⟨-, -, rfl⟩ := phrase?_eq_some h
  rfl

theorem GoMap.line_of_phrase? {constants : List Constant} {entry : Entry} {phrase : Phrase}
    (h : phrase? constants entry = some phrase) : phrase.line = entry.key.lexeme.line := by
  obtain ⟨key, value, -, -, rfl⟩ := phrase?_eq_some h
  rfl

end Table

end Phrasebook
