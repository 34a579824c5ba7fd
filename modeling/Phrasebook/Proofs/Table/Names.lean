import Phrasebook.Proofs.Table.Declarations
import Phrasebook.Proofs.Table.LineEnding
import Phrasebook.Proofs.Table.ObjectLiteral
import Phrasebook.Proofs.Table.Place

/-!
# Names as keys

A key may be the name of a constant, and the constants of the whole file count for every entry. So a
declaration behind an entry is as good as one before it, and of several the last in the file decides.
-/

namespace Phrasebook.Table

open Lexeme

/-! ## The last declaration of a name -/

/-- The last of the specifications that has this name. -/
def lastNamed (name : Text) (specs : List Specification) : Option Specification :=
  specs.reverse.find? fun spec => spec.name.text = name

theorem lastNamed_append (name : Text) (earlier later : List Specification) :
    lastNamed name (earlier ++ later) = (lastNamed name later).or (lastNamed name earlier) := by
  rw [lastNamed, List.reverse_append, List.find?_append]
  rfl

/-! ## Before and behind an entry -/

theorem exists_of_mem_entries {lexemes : List Lexeme} {entry : Entry} (h : entry ∈ entries lexemes) :
    ∃ front colon behind rest, withoutComments lexemes =
      front ++ entry.key.lexeme :: colon :: entry.value.lexeme :: behind :: rest ∧
        colon.kind = .colon ∧ closesEntry behind.kind = true := by
  obtain ⟨front, before, colon, behind, rest, hcode, -, -, hcolon, hbehind⟩ :=
    exists_of_mem_entriesOfCode h
  refine ⟨(front ++ [before]).map (·.lexeme), colon.lexeme, behind.lexeme, rest.map (·.lexeme), ?_,
    hcolon, hbehind⟩
  rw [← lexemes_code, hcode]
  simp

section

variable {code front rest : List Lexeme} {key colon value behind : Lexeme} {spec : Specification}

/-- The one name behind that of a specification is its type, with the equals sign behind it. -/
theorem later_eq_of_identifier {earlier later : List Lexeme} {lexeme : Lexeme}
    (h : spec.following = earlier ++ lexeme :: later) (hkind : lexeme.kind = .identifier) :
    later = [spec.assign, spec.literal] := by
  have hnot : ∀ earlier : List Lexeme, [spec.assign, spec.literal] ≠ earlier ++ lexeme :: later := by
    intro earlier heq
    have hmem : lexeme ∈ [spec.assign, spec.literal] := by simp [heq]
    rcases List.mem_pair.mp hmem with rfl | rfl
    · exact spec.assign_ne_identifier hkind
    · exact spec.literal_ne_identifier hkind
  rw [Specification.following] at h
  cases htype : spec.type? with
  | none =>
    rw [htype] at h
    exact absurd h (hnot earlier)
  | some type =>
    rw [htype] at h
    cases earlier with
    | nil => exact (List.cons.inj h).2.symm
    | cons first earlier => exact absurd (List.cons.inj h).2 (hnot earlier)

/-- A specification that begins before an entry ends before it. -/
theorem literal_mem_of_lt (hcode : code = front ++ key :: colon :: value :: behind :: rest)
    (hkey : key.kind = .identifier) (hcolon : colon.kind = .colon) (hin : spec.IsIn code)
    (hlt : spec.before.length < front.length) : spec.literal ∈ front := by
  have hends : spec.literal ∈ spec.following := by simp [Specification.following]
  rw [hcode, Specification.IsIn, eq_comm, List.append_eq_append_iff] at hin
  rcases hin with ⟨inside, rfl, hrest⟩ | ⟨inside, hbefore, -⟩
  · cases inside with
    | nil => simp at hlt
    | cons first inside =>
      have hfollowing := (List.cons.inj hrest).2
      rcases List.append_eq_append_iff.mp hfollowing with ⟨later, rfl, -⟩ | ⟨later, hsplit, hkeyrest⟩
      · simp [hends]
      · cases later with
        | nil =>
          rw [List.append_nil] at hsplit
          simp [← hsplit, hends]
        | cons next later =>
          obtain ⟨rfl, hcolonrest⟩ := List.cons.inj hkeyrest
          rw [later_eq_of_identifier hsplit hkey] at hcolonrest
          obtain ⟨rfl, -⟩ := List.cons.inj hcolonrest
          exact absurd (hcolon.symm.trans spec.assign_sign.1) (by decide)
  · have hlength := congrArg List.length hbefore
    simp only [List.length_reverse, List.length_append] at hlength
    omega

theorem Specification.following_eq_cons (spec : Specification) : ∃ first later,
    spec.following = first :: later ∧ (first.kind = .identifier ∨ first.kind = .punctuation) := by
  rw [following]
  cases htype : spec.type? with
  | none => exact ⟨_, _, rfl, .inr spec.assign_sign.1⟩
  | some type => exact ⟨_, _, rfl, .inl (spec.type_kind type htype)⟩

/-- A specification that begins at an entry or behind it begins behind its value. -/
theorem value_mem_of_le (hcode : code = front ++ key :: colon :: value :: behind :: rest)
    (hcolon : colon.kind = .colon) (hbehind : closesEntry behind.kind = true) (hin : spec.IsIn code)
    (hle : front.length ≤ spec.before.length) : value ∈ spec.before := by
  obtain ⟨first, later, hfollowing, hfirst⟩ := spec.following_eq_cons
  have hcolonfirst : colon ≠ first := by
    rintro rfl
    simp [hcolon] at hfirst
  have hbehindfirst : behind ≠ first := by
    rintro rfl
    rcases hfirst with hkind | hkind <;> simp [closesEntry, hkind] at hbehind
  have hcolonname : colon ≠ spec.name := fun heq => by
    have hname := spec.name_kind
    simp [← heq, hcolon] at hname
  rw [hcode, Specification.IsIn, hfollowing, List.append_eq_append_iff] at hin
  rcases hin with ⟨inside, hbefore, hrest⟩ | ⟨inside, rfl, hrest⟩
  · rw [← List.mem_reverse, hbefore]
    rcases inside with _ | ⟨_, _ | ⟨_, _ | ⟨third, _⟩⟩⟩
    · exact absurd (List.cons.inj (List.cons.inj hrest).2).1 hcolonfirst
    · exact absurd (List.cons.inj (List.cons.inj hrest).2).1 hcolonname
    · have hthird := (List.cons.inj (List.cons.inj hrest).2).2
      exact absurd (List.cons.inj (List.cons.inj hthird).2).1 hbehindfirst
    · obtain rfl : value = third := (List.cons.inj (List.cons.inj (List.cons.inj hrest).2).2).1
      simp
  · -- The key itself would be the name.
    rw [List.length_append, List.length_reverse] at hle
    obtain rfl : inside = [] := List.eq_nil_of_length_eq_zero (by omega)
    exact absurd (List.cons.inj (List.cons.inj hrest).2).1.symm hcolonfirst

end

theorem exists_split {specs : List Specification} (horder : specs.Pairwise Specification.Before)
    (place : Nat) : ∃ earlier later, specs = earlier ++ later ∧
      (∀ spec ∈ earlier, spec.before.length < place) ∧ ∀ spec ∈ later, place ≤ spec.before.length := by
  induction specs with
  | nil => exact ⟨[], [], rfl, by simp, by simp⟩
  | cons spec specs ih =>
    rcases Nat.lt_or_ge spec.before.length place with hlt | hge
    · obtain ⟨earlier, later, rfl, hearlier, hlater⟩ := ih horder.of_cons
      exact ⟨spec :: earlier, later, rfl, List.forall_mem_cons.mpr ⟨hlt, hearlier⟩, hlater⟩
    · refine ⟨[], spec :: specs, rfl, by simp, List.forall_mem_cons.mpr ⟨hge, fun other hother => ?_⟩⟩
      exact Nat.le_trans hge (Nat.le_of_lt (List.rel_of_pairwise_cons horder hother))

/-- The specification ends before the key of the entry. -/
def Specification.IsBefore (spec : Specification) (entry : Entry) : Prop :=
  spec.literal.stop ≤ entry.key.lexeme.position.offset

/-- The specification begins behind the value of the entry. -/
def Specification.IsBehind (spec : Specification) (entry : Entry) : Prop :=
  entry.value.lexeme.stop ≤ spec.name.position.offset

/-- Every specification stands before an entry or behind it. -/
theorem exists_before_and_behind {source : Text} {lexemes : List Lexeme} (h : readAll source = .ok lexemes)
    {entry : Entry} (hentry : entry ∈ entries lexemes) (hkey : entry.key.lexeme.kind = .identifier)
    {specs : List Specification} (horder : specs.Pairwise Specification.Before)
    (hin : ∀ spec ∈ specs, spec.IsIn (withoutComments lexemes)) : ∃ earlier later,
      specs = earlier ++ later ∧ (∀ spec ∈ earlier, spec.IsBefore entry) ∧
        ∀ spec ∈ later, spec.IsBehind entry := by
  obtain ⟨front, colon, behind, rest, hcode, hcolon, hbehind⟩ := exists_of_mem_entries hentry
  obtain ⟨earlier, later, rfl, hearlier, hlater⟩ := exists_split horder front.length
  obtain ⟨stop, hsegmented⟩ := readFrom_eq_ok_iff.mp h
  have hspans : (withoutComments lexemes).Pairwise fun a b => a.stop ≤ b.position.offset :=
    hsegmented.inPlace.order.sublist List.filter_sublist
  refine ⟨earlier, later, rfl, fun spec hspec => ?_, fun spec hspec => ?_⟩
  · have hmem := literal_mem_of_lt hcode hkey hcolon (hin spec (List.mem_append_left _ hspec))
      (hearlier spec hspec)
    rw [hcode, List.pairwise_append] at hspans
    exact hspans.2.2 _ hmem _ List.mem_cons_self
  · have hplace := hin spec (List.mem_append_right _ hspec)
    have hmem := value_mem_of_le hcode hcolon hbehind hplace (hlater spec hspec)
    rw [hplace, List.pairwise_append] at hspans
    exact hspans.2.2 _ (List.mem_reverse.mpr hmem) _ List.mem_cons_self

/-! ## Whole tables -/

/-- An entry with a name for its key is a phrase exactly if its value is one and a constant of that name is
declared anywhere in the file, before the entry or behind it. The last of these declarations gives the key:
those behind the entry go before those that stand before it. -/
theorem GoMap.phrases_of_names {source : Text} {found : List Phrase} (h : phrases source = .ok found) :
    ∃ lexemes, ∃ specs : List Specification, read source = .ok lexemes ∧
      found = (entries lexemes).filterMap (phrase? (Constant.all lexemes)) ∧
      specs.Pairwise Specification.Before ∧
      (∀ spec, spec ∈ specs ↔ spec.IsIn (withoutComments lexemes) ∧ spec.IsDeclared) ∧
      ∀ entry ∈ entries lexemes, entry.key.lexeme.kind = .identifier → ∃ earlier later,
        specs = earlier ++ later ∧ (∀ spec ∈ earlier, spec.IsBefore entry) ∧
        (∀ spec ∈ later, spec.IsBehind entry) ∧
        phrase? (Constant.all lexemes) entry = do
          let spec ← (lastNamed entry.key.lexeme.text later).or (lastNamed entry.key.lexeme.text earlier)
          let value ← value? entry.value.lexeme
          return .keyed spec.literal.body value (Phrase.hintOfLines entry.comments) entry.key.lexeme.line := by
  obtain ⟨lexemes, hread, rfl⟩ := map_eq_ok.mp h
  obtain ⟨specs, hspecs, horder, hexact⟩ := exists_specifications lexemes
  refine ⟨lexemes, specs, hread, rfl, horder, hexact, fun entry hentry hkey => ?_⟩
  obtain ⟨earlier, later, hsplit, hearlier, hlater⟩ := exists_before_and_behind (read_eq_ok hread) hentry
    hkey horder fun spec hspec => ((hexact spec).mp hspec).1
  refine ⟨earlier, later, hsplit, hearlier, hlater, ?_⟩
  have hfound : key? (Constant.all lexemes) entry.key.lexeme =
      (lastNamed entry.key.lexeme.text specs).map fun spec => spec.literal.body := by
    rw [key?, hkey, hspecs, value?_map_constant]
    rfl
  rw [← lastNamed_append, ← hsplit, phrase?, hfound, Option.bind_eq_bind, Option.bind_map]
  rfl

/-- The constant is declared twice, before the entry and behind it. -/
theorem GoMap.phrases_of_names_twice :
    let source : Text := "const k = \"A\"\nm\x7bk: \"v\"\x7d\nconst k = \"B\""
    phrases source = .ok [.keyed "B" "v" none 2] ∧
      ∃ lexemes, ∃ specs : List Specification, read source = .ok lexemes ∧
        (∀ spec, spec ∈ specs ↔ spec.IsIn (withoutComments lexemes) ∧ spec.IsDeclared) ∧
        ∀ entry ∈ entries lexemes, entry.key.lexeme.kind = .identifier → ∃ earlier later,
          specs = earlier ++ later ∧ (∀ spec ∈ earlier, spec.IsBefore entry) ∧
          ∀ spec ∈ later, spec.IsBehind entry := by
  intro source
  have hfound : phrases source = .ok [.keyed "B" "v" none 2] := by decide +kernel
  obtain ⟨lexemes, specs, hread, -, -, hexact, hentries⟩ := phrases_of_names hfound
  refine ⟨hfound, lexemes, specs, hread, hexact, fun entry hentry hkey => ?_⟩
  obtain ⟨earlier, later, hsplit, hearlier, hlater, -⟩ := hentries entry hentry hkey
  exact ⟨earlier, later, hsplit, hearlier, hlater⟩

/-- What stands before the entry declares nothing, and still its key has a value. -/
theorem GoMap.phrases_of_later_name :
    let source : Text := "m\x7bk: \"v\"\x7d\nconst k = \"K\""
    phrases source = .ok [.keyed "K" "v" none 1] ∧
      ∃ lexemes, read source = .ok lexemes ∧ ∃ entry ∈ entries lexemes,
        entry.key.lexeme.kind = .identifier ∧ Constant.all entry.key.before.reverse = [] := by
  intro source
  refine ⟨by decide +kernel, ?_⟩
  have hentries : (read source).map (fun lexemes => (entries lexemes).map fun entry =>
      (entry.key.lexeme.kind, Constant.all entry.key.before.reverse)) = .ok [(.identifier, [])] := by
    decide +kernel
  obtain ⟨lexemes, hread, hall⟩ := map_eq_ok.mp hentries
  obtain ⟨entry, hentry, hkey⟩ := List.mem_map.mp (hall ▸ List.mem_singleton_self _)
  exact ⟨lexemes, hread, entry, hentry, (Prod.mk.inj hkey).1, (Prod.mk.inj hkey).2⟩

end Phrasebook.Table
