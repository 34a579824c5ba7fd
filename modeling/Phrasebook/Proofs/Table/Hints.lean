import Mathlib.Data.List.Flatten
import Mathlib.Data.List.Nodup
import Phrasebook.Proofs.Lexeme.CommentBlock
import Phrasebook.Proofs.Table.LineEnding
import Phrasebook.Proofs.Table.Order

/-!
# Whose hint a comment is

A comment may stand behind one entry and above the next. Still it counts for one of them at most: a comment
that trails a value begins on the last line of code before it, and such a comment leads to no key.
-/

namespace Phrasebook

open Text

namespace Lexeme

/-! ## The comment behind a value -/

/-- The comment behind a value, as a lexeme. -/
def Placed.trailing (value : Placed) : Option Lexeme :=
  let candidates : List Lexeme := match value.behind with
    | [] => []
    | next :: others => if next.kind = .comma then others else value.behind
  candidates.head?.filter fun c => c.isComment && c.line == value.lexeme.lastLine

theorem Placed.trailingComment_eq (value : Placed) :
    value.trailingComment = value.trailing.map body := rfl

/-- Between a value and its comment there is a comma or nothing. -/
theorem Placed.trailing_eq_some {value : Placed} {comment : Lexeme} (h : value.trailing = some comment) :
    comment.isComment = true ∧ comment.line = value.lexeme.lastLine ∧ ∃ later,
      value.behind = comment :: later ∨
        ∃ comma, comma.kind = .comma ∧ value.behind = comma :: comment :: later := by
  obtain ⟨lexeme, before, behind⟩ := value
  obtain ⟨hhead, hcomment⟩ := Option.filter_eq_some_iff.mp h
  simp only [Bool.and_eq_true, beq_iff_eq] at hcomment
  refine ⟨hcomment.1, hcomment.2, ?_⟩
  cases behind with
  | nil => cases hhead
  | cons next others =>
    simp only at hhead
    split at hhead
    · rename_i hcomma
      obtain ⟨later, rfl⟩ := List.head?_eq_some_iff.mp hhead
      exact ⟨later, .inr ⟨next, hcomma, rfl⟩⟩
    · obtain ⟨later, hlater⟩ := List.head?_eq_some_iff.mp hhead
      exact ⟨later, .inl hlater⟩

/-! ## A comment in its place -/

section

variable {lexemes : List Lexeme} {comment : Lexeme} {placed other key value : Placed}

/-- Between a comment that leads to a key and the key there are comments alone, and no code stands directly
before it on its line. -/
theorem exists_placed_of_mem_block (hkey : key ∈ Lexeme.placed lexemes) (h : comment ∈ key.block) :
    ∃ place ∈ Lexeme.placed lexemes, place.lexeme = comment ∧
      sharesLineWithCode comment place.before = false ∧
      ∃ between, place.behind = between ++ key.lexeme :: key.behind ∧
        ∀ lexeme ∈ between, lexeme.isComment = true := by
  obtain ⟨above, hbefore, hblock⟩ := exists_isBlock key.lexeme key.before
  obtain ⟨lower, upper, hsplit⟩ := List.append_of_mem h
  have hall : key.before = lower ++ comment :: (upper ++ above) := by
    rw [hbefore, ← Placed.block, hsplit]
    simp
  refine ⟨⟨comment, upper ++ above, lower.reverse ++ key.lexeme :: key.behind⟩, ?_, rfl,
    hblock.unshared upper comment lower hsplit, lower.reverse, rfl, ?_⟩
  · rw [mem_placed_iff, mem_placed_iff.mp hkey, hall]
    simp
  · intro lexeme hlexeme
    refine hblock.comments lexeme ?_
    rw [← Placed.block, hsplit]
    exact List.mem_append_left _ (List.mem_reverse.mp hlexeme)

theorem exists_placed_of_trailing (hvalue : value ∈ Lexeme.placed lexemes)
    (h : value.trailing = some comment) :
    ∃ place ∈ Lexeme.placed lexemes, place.lexeme = comment ∧ comment.line = value.lexeme.lastLine ∧
      (place.before = value.lexeme :: value.before ∨
        ∃ comma, comma.kind = .comma ∧ place.before = comma :: value.lexeme :: value.before) := by
  obtain ⟨-, hline, later, hbehind | ⟨comma, hcomma, hbehind⟩⟩ := Placed.trailing_eq_some h
  · refine ⟨⟨comment, value.lexeme :: value.before, later⟩, ?_, rfl, hline, .inl rfl⟩
    rw [mem_placed_iff, mem_placed_iff.mp hvalue, hbehind]
    simp
  · refine ⟨⟨comment, comma :: value.lexeme :: value.before, later⟩, ?_, rfl, hline,
      .inr ⟨comma, hcomma, rfl⟩⟩
    rw [mem_placed_iff, mem_placed_iff.mp hvalue, hbehind]
    simp

/-! ## No comment counts twice -/

theorem Placed.nodup_block (key : Placed) : key.block.Nodup := by
  obtain ⟨above, -, hblock⟩ := exists_isBlock key.lexeme key.before
  refine hblock.pairwise.of_cons.imp fun {lower upper} hbelow hsame => ?_
  have hspan := line_le_lastLine upper
  rw [IsBelow, hsame] at hbelow
  omega

theorem find?_code {between behind : List Lexeme} {code : Lexeme}
    (hbetween : ∀ lexeme ∈ between, lexeme.isComment = true) (hcode : code.isComment = false) :
    (between ++ code :: behind).find? (fun lexeme => !lexeme.isComment) = some code := by
  rw [List.find?_append, List.find?_eq_none.mpr (by simpa using hbetween)]
  simp [hcode]

/-- A comment leads to the first code behind it. -/
theorem key_unique (horder : lexemes.Pairwise fun a b => a.position.offset < b.position.offset)
    {key' : Placed} (hkey : key ∈ Lexeme.placed lexemes) (hkey' : key' ∈ Lexeme.placed lexemes)
    (hcode : key.lexeme.isComment = false) (hcode' : key'.lexeme.isComment = false)
    (h : comment ∈ key.block) (h' : comment ∈ key'.block) : key = key' := by
  obtain ⟨place, hplace, hlexeme, -, between, hbehind, hbetween⟩ := exists_placed_of_mem_block hkey h
  obtain ⟨place', hplace', hlexeme', -, between', hbehind', hbetween'⟩ :=
    exists_placed_of_mem_block hkey' h'
  obtain rfl := placed_unique horder hplace hplace' (hlexeme.trans hlexeme'.symm)
  have hfirst : place.behind.find? (fun lexeme => !lexeme.isComment) = some key.lexeme := by
    rw [hbehind, find?_code hbetween hcode]
  have hfirst' : place.behind.find? (fun lexeme => !lexeme.isComment) = some key'.lexeme := by
    rw [hbehind', find?_code hbetween' hcode']
  exact placed_unique horder hkey hkey' (Option.some.inj (hfirst.symm.trans hfirst'))

/-- A comment trails the last code before it that is no comma. -/
theorem value_unique (horder : lexemes.Pairwise fun a b => a.position.offset < b.position.offset)
    {value' : Placed} (hvalue : value ∈ Lexeme.placed lexemes) (hvalue' : value' ∈ Lexeme.placed lexemes)
    (hcomma : value.lexeme.kind ≠ .comma) (hcomma' : value'.lexeme.kind ≠ .comma)
    (h : value.trailing = some comment) (h' : value'.trailing = some comment) : value = value' := by
  obtain ⟨place, hplace, hlexeme, -, hbefore⟩ := exists_placed_of_trailing hvalue h
  obtain ⟨place', hplace', hlexeme', -, hbefore'⟩ := exists_placed_of_trailing hvalue' h'
  obtain rfl := placed_unique horder hplace hplace' (hlexeme.trans hlexeme'.symm)
  have hsame : value.lexeme = value'.lexeme := by
    rcases hbefore with hbefore | ⟨comma, hkind, hbefore⟩ <;>
      rcases hbefore' with hbefore' | ⟨comma', hkind', hbefore'⟩ <;>
      rw [hbefore] at hbefore'
    · exact (List.cons.inj hbefore').1
    · obtain ⟨rfl, -⟩ := List.cons.inj hbefore'
      exact absurd hkind' hcomma
    · obtain ⟨rfl, -⟩ := List.cons.inj hbefore'
      exact absurd hkind hcomma'
    · exact (List.cons.inj (List.cons.inj hbefore').2).1
  exact placed_unique horder hvalue hvalue' hsame

/-- A comment that trails a value stands directly behind code on its line, the value or its comma. -/
theorem not_mem_block_of_trailing
    (horder : lexemes.Pairwise fun a b => a.position.offset < b.position.offset)
    (hlines : lexemes.Pairwise fun a b => a.lastLine ≤ b.line) (hkey : key ∈ Lexeme.placed lexemes)
    (hvalue : value ∈ Lexeme.placed lexemes) (hcode : value.lexeme.isComment = false)
    (h : value.trailing = some comment) : comment ∉ key.block := by
  intro hblock
  obtain ⟨place, hplace, hlexeme, hshares, -⟩ := exists_placed_of_mem_block hkey hblock
  obtain ⟨place', hplace', hlexeme', hline, hbefore⟩ := exists_placed_of_trailing hvalue h
  obtain rfl := placed_unique horder hplace hplace' (hlexeme.trans hlexeme'.symm)
  have hup := lines_upwards hlines hplace
  rw [hlexeme] at hup
  rcases hbefore with hbefore | ⟨comma, hcomma, hbefore⟩
  · simp [hbefore, sharesLineWithCode, hcode, hline] at hshares
  · rw [hbefore] at hup hshares
    have hends : comma.lastLine ≤ comment.line := List.rel_of_pairwise_cons hup List.mem_cons_self
    have hbegins : value.lexeme.lastLine ≤ comma.line :=
      List.rel_of_pairwise_cons hup.of_cons List.mem_cons_self
    have hspan := line_le_lastLine comma
    have hsame : comma.lastLine = comment.line := by omega
    simp [sharesLineWithCode, Lexeme.isComment, Kind.isComment, hcomma, hsame] at hshares

end

end Lexeme

namespace Table

open Lexeme

/-! ## The comments of an entry -/

/-- The comments that make up the hint of an entry, as lexemes. In a plain table those above the key do not
count. -/
def Entry.commentLexemes (entry : Entry) : List Lexeme :=
  entry.key.block.reverse ++ entry.value.trailing.toList

theorem Entry.comments_eq (entry : Entry) : entry.comments = entry.commentLexemes.map body := by
  rw [Entry.comments, Entry.commentLexemes, Entry.leadingComments, Entry.trailingComment,
    Placed.leadingComments_eq, Placed.trailingComment_eq, List.map_append, List.map_reverse]
  cases entry.value.trailing <;> rfl

section

variable {source : Text} {lexemes : List Lexeme} {origins : List Entry}

/-- The comments of entries whose values are no commas are comments of the source, each of them once. -/
theorem nodup_commentLexemes (h : readAll source = .ok lexemes) (horigins : origins.Sublist (entries lexemes))
    (hvalues : ∀ entry ∈ origins, entry.value.lexeme.kind ≠ .comma) :
    (origins.flatMap Entry.commentLexemes).Nodup := by
  obtain ⟨stop, hsegmented⟩ := readFrom_eq_ok_iff.mp h
  have hlines := hsegmented.lines.2
  have horder := pairwise_offset h
  have hplaces : ∀ entry ∈ origins, (entry.key ∈ placed lexemes ∧ entry.key.lexeme.isComment = false) ∧
      entry.value ∈ placed lexemes ∧ entry.value.lexeme.isComment = false := by
    intro entry hentry
    obtain ⟨hkey, hvalue⟩ := mem_of_mem_entriesOfCode (horigins.subset hentry)
    simpa [code] using And.intro hkey hvalue
  rw [List.nodup_flatMap]
  constructor
  · intro entry hentry
    obtain ⟨⟨hkey, -⟩, hvalue, hcode⟩ := hplaces entry hentry
    refine List.nodup_append.mpr ⟨List.nodup_reverse.mpr entry.key.nodup_block, ?_, ?_⟩
    · cases entry.value.trailing <;> simp
    · rintro comment hleads _ htrails rfl
      exact not_mem_block_of_trailing horder hlines hkey hvalue hcode (Option.mem_toList.mp htrails)
        (List.mem_reverse.mp hleads)
  · have hbefore : origins.Pairwise fun a b => a.key ≠ b.key ∧ a.value ≠ b.value := by
      refine ((pairwise_precedes lexemes).sublist horigins).imp fun hab => ⟨?_, ?_⟩
      · exact fun hsame => Nat.ne_of_lt hab.keys (congrArg Placed.index hsame)
      · exact fun hsame => Nat.ne_of_lt hab.values (congrArg Placed.index hsame)
    refine hbefore.imp_of_mem fun {a b} ha hb ⟨hkeys, hvalues'⟩ comment hmem hmem' => ?_
    obtain ⟨⟨hkey, hkeycode⟩, hvalue, hvaluecode⟩ := hplaces a ha
    obtain ⟨⟨hkey', hkeycode'⟩, hvalue', hvaluecode'⟩ := hplaces b hb
    simp only [Entry.commentLexemes, List.mem_append, List.mem_reverse, Option.mem_toList]
      at hmem hmem'
    rcases hmem with hleads | htrails <;> rcases hmem' with hleads' | htrails'
    · exact hkeys (key_unique horder hkey hkey' hkeycode hkeycode' hleads hleads')
    · exact not_mem_block_of_trailing horder hlines hkey hvalue' hvaluecode' htrails' hleads
    · exact not_mem_block_of_trailing horder hlines hkey' hvalue hvaluecode htrails hleads'
    · exact hvalues'
        (value_unique horder hvalue hvalue' (hvalues a ha) (hvalues b hb) htrails htrails')

end

/-! ## Whole tables -/

theorem Plain.hint_eq_of_phrase? {entry : Entry} {phrase : Phrase} (h : phrase? entry = some phrase) :
    phrase.hint = entry.value.trailing.map body := by
  obtain ⟨-, -, rfl⟩ := phrase?_eq_some h
  rfl

theorem Plain.value_ne_comma {entry : Entry} {phrase : Phrase} (h : phrase? entry = some phrase) :
    entry.value.lexeme.kind ≠ .comma := by
  obtain ⟨-, hvalue, -⟩ := phrase?_eq_some h
  simp [hvalue]

theorem GoMap.value_ne_comma {constants : List Constant} {entry : Entry} {phrase : Phrase}
    (h : phrase? constants entry = some phrase) : entry.value.lexeme.kind ≠ .comma := by
  obtain ⟨key, value, -, hvalue, -⟩ := phrase?_eq_some h
  intro hcomma
  rw [GoMap.value?, hcomma] at hvalue
  cases hvalue

/-- The hint of a phrase is what certain comments of the source say, and no comment is one of these for two
phrases, be it above the key or behind the value. -/
theorem comments_belong_once (source : Text) :
    (∀ found, GoMap.phrases source = .ok found → ∃ lexemes origins,
      read source = .ok lexemes ∧ origins.Sublist (entries lexemes) ∧
        List.Forall₂ (fun entry phrase => GoMap.phrase? (Constant.all lexemes) entry = some phrase ∧
          phrase.hint = Phrase.hintOfLines (entry.commentLexemes.map body)) origins found ∧
        (origins.flatMap Entry.commentLexemes).Nodup) ∧
    ∀ found, Plain.phrases source = .ok found → ∃ lexemes origins,
      read source = .ok lexemes ∧ origins.Sublist (entries lexemes) ∧
        List.Forall₂ (fun entry phrase => Plain.phrase? entry = some phrase ∧
          phrase.hint = entry.value.trailing.map body) origins found ∧
        (origins.flatMap fun entry => entry.value.trailing.toList).Nodup := by
  constructor
  · intro found h
    obtain ⟨lexemes, hread, rfl⟩ := map_eq_ok.mp h
    obtain ⟨origins, hordered⟩ := exists_ordered_entries hread (GoMap.phrase? (Constant.all lexemes))
    refine ⟨lexemes, origins, hread, hordered.entries, ?_, ?_⟩
    · refine hordered.phrases.imp fun entry phrase hphrase => ⟨hphrase, ?_⟩
      rw [← Entry.comments_eq]
      exact GoMap.hint_eq_of_phrase? hphrase
    · refine nodup_commentLexemes (read_eq_ok hread) hordered.entries fun entry hentry => ?_
      obtain ⟨phrase, hphrase⟩ := exists_of_forall₂ hordered.phrases entry hentry
      exact GoMap.value_ne_comma hphrase
  · intro found h
    obtain ⟨lexemes, hread, rfl⟩ := map_eq_ok.mp h
    obtain ⟨origins, hordered⟩ := exists_ordered_entries hread Plain.phrase?
    refine ⟨lexemes, origins, hread, hordered.entries, ?_, ?_⟩
    · exact hordered.phrases.imp fun entry phrase hphrase =>
        ⟨hphrase, Plain.hint_eq_of_phrase? hphrase⟩
    · have hall : (origins.flatMap Entry.commentLexemes).Nodup := by
        refine nodup_commentLexemes (read_eq_ok hread) hordered.entries fun entry hentry => ?_
        obtain ⟨phrase, hphrase⟩ := exists_of_forall₂ hordered.phrases entry hentry
        exact Plain.value_ne_comma hphrase
      exact hall.sublist (List.Sublist.flatMap_right _ fun entry _ => List.sublist_append_right _ _)

/-- The comment behind `a` stands above `b` too, next to the one that does lead to it. -/
theorem comments_belong_once_between :
    let source : Text := "m\x7b\n// over a\n\"a\": \"1\", // behind a\n// over b\n\"b\": \"2\" // behind b\n\x7d"
    let go : List Phrase :=
      [.keyed "a" "1" (some "over a\nbehind a") 3, .keyed "b" "2" (some "over b\nbehind b") 5]
    let plain : List Phrase := [.keyed "a" "1" (some "behind a") 3, .keyed "b" "2" (some "behind b") 5]
    GoMap.phrases source = .ok go ∧ Plain.phrases source = .ok plain ∧
      (∃ lexemes, ∃ origins : List Entry, read source = .ok lexemes ∧
        List.Forall₂ (fun entry phrase =>
          phrase.hint = Phrase.hintOfLines (entry.commentLexemes.map body)) origins go ∧
        (origins.flatMap Entry.commentLexemes).Nodup) ∧
      ∃ lexemes, ∃ origins : List Entry, read source = .ok lexemes ∧
        List.Forall₂ (fun entry phrase => phrase.hint = entry.value.trailing.map body) origins plain ∧
        (origins.flatMap fun entry => entry.value.trailing.toList).Nodup := by
  intro source go plain
  have hgo : GoMap.phrases source = .ok go := by decide +kernel
  have hplain : Plain.phrases source = .ok plain := by decide +kernel
  refine ⟨hgo, hplain, ?_, ?_⟩
  · obtain ⟨lexemes, origins, hread, -, hhints, honce⟩ := (comments_belong_once source).1 go hgo
    exact ⟨lexemes, origins, hread, hhints.imp fun _ _ h => h.2, honce⟩
  · obtain ⟨lexemes, origins, hread, -, hhints, honce⟩ := (comments_belong_once source).2 plain hplain
    exact ⟨lexemes, origins, hread, hhints.imp fun _ _ h => h.2, honce⟩

end Table

end Phrasebook
