import Phrasebook.Proofs.Lexeme.CommentBlock
import Phrasebook.Proofs.Page.Found

/-!
# The literals of server code

The blocks of server code that are looked into give one phrase for each double-quoted literal with text in
it. Its hint are the comments above the first lexeme on the line that it begins on.
-/

namespace Phrasebook.Page

open Markup Text

/-! ## Literals -/

/-- A lexeme of a block of server code. -/
structure Literal where
  site : Site
  lexeme : Lexeme
  deriving DecidableEq, Repr

/-- The lexeme is a double-quoted literal that says something. -/
def IsFilledString (lexeme : Lexeme) : Prop :=
  lexeme.kind = .quoted .double ∧ allBlank (Escape.decode .cFamily lexeme.body) = false

instance (lexeme : Lexeme) : Decidable (IsFilledString lexeme) :=
  inferInstanceAs (Decidable (_ ∧ _))

namespace Site

/-- The lexemes of a block of server code. -/
def lexemes (site : Site) : Except Fault (List Lexeme) :=
  match site.node with
  | .leaf (.serverCode code) => Lexeme.readFrom (site.position.advance "<?") code
  | _ => .ok []

/-- The literals of a block, in order. -/
def literals (site : Site) : List Literal :=
  match site.lexemes with
  | .ok lexemes => (lexemes.filter fun lexeme => IsFilledString lexeme).map (⟨site, ·⟩)
  | .error _ => []

def isServerCode (site : Site) : Bool :=
  match site.node with
  | .leaf (.serverCode _) => true
  | _ => false

/-- The node is a block of server code, neither excluded nor inside a unit. -/
structure IsVisibleBlock (rules : Rules) (harvested : List (Site × Phrase)) (site : Site) : Prop where
  code : site.isServerCode = true
  included : site.state ≠ .forceOff
  outside : ¬ site.IsInsideUnit rules harvested

instance (rules : Rules) (harvested : List (Site × Phrase)) (site : Site) :
    Decidable (site.IsVisibleBlock rules harvested) :=
  decidable_of_iff (site.isServerCode = true ∧ site.state ≠ .forceOff ∧
    ¬ site.IsInsideUnit rules harvested)
    ⟨fun h => ⟨h.1, h.2.1, h.2.2⟩, fun h => ⟨h.code, h.included, h.outside⟩⟩

end Site

/-- The literals of a page that can be seen, in order. -/
def visibleLiterals (rules : Rules) (harvested : List (Site × Phrase)) (forest : Forest) : List Literal :=
  ((pageSites rules forest).filter fun site => site.IsVisibleBlock rules harvested).flatMap Site.literals

/-- The hint is made of the comments that lead to `head`, the first lexeme that begins on the line. They
have all ended above the line. -/
structure IsHintAbove (lexemes : List Lexeme) (line : Nat) (hint : Option Text) (head : Lexeme.Placed) :
    Prop where
  mem : head ∈ Lexeme.placed lexemes
  first : head.IsFirstOn line
  joined : hint = if head.leadingComments = [] then none else some (join "\n" head.leadingComments)
  above : ∀ comment ∈ head.leadingComments, ∃ lexeme ∈ lexemes,
    lexeme.isComment = true ∧ lexeme.body = comment ∧ lexeme.lastLine < line

/-- The entry is the phrase of the literal. -/
structure IsStringOf (literal : Literal) (entry : Site × Phrase) : Prop where
  site : entry.1 = literal.site
  key : entry.2.key = none
  kind : entry.2.kind = .serverString
  value : entry.2.value = Escape.decode .cFamily literal.lexeme.body
  line : entry.2.line = literal.lexeme.line
  hint : ∃ lexemes head, literal.site.lexemes = .ok lexemes ∧
    IsHintAbove lexemes literal.lexeme.line entry.2.hint head

section

variable {rules : Rules}

/-! ## One block -/

theorem hintOfLines_eq (lines : List Text) :
    Phrase.hintOfLines lines = if lines = [] then none else some (join "\n" lines) := by
  cases lines <;> rfl

theorem serverString?_eq_some {lexemes : List Lexeme} {site : Site} {placed : Lexeme.Placed}
    (hread : site.lexemes = .ok lexemes) (hlines : lexemes.Pairwise fun a b => a.line ≤ b.line)
    (hplaced : placed ∈ Lexeme.placed lexemes) (hfilled : IsFilledString placed.lexeme) :
    ∃ phrase, serverString? placed = some phrase ∧ IsStringOf ⟨site, placed.lexeme⟩ (site, phrase) := by
  obtain ⟨head, hhead, hfirst, hbefore⟩ := Lexeme.exists_isFirstOn hlines hplaced
  refine ⟨_, if_pos ⟨hfilled.1, by simp [hfilled.2]⟩, rfl, rfl, rfl, rfl, rfl, lexemes, head, hread, hhead,
    hfirst, ?_, fun comment hcomment => ?_⟩
  · rw [← hintOfLines_eq, Lexeme.Placed.leadingComments, hbefore, hfirst.here]
    rfl
  · obtain ⟨lexeme, hlexeme, hfound, hbody, habove⟩ := head.exists_of_mem_leadingComments hcomment
    rw [hfirst.here] at habove
    refine ⟨lexeme, ?_, hfound, hbody, habove⟩
    rw [Lexeme.mem_placed_iff.mp hhead]
    simp [hlexeme]

theorem serverString?_eq_none {placed : Lexeme.Placed} (h : ¬ IsFilledString placed.lexeme) :
    serverString? placed = none := by
  refine if_neg fun hfilled => h ⟨hfilled.1, ?_⟩
  simpa using hfilled.2

theorem lines_of_lexemes {site : Site} {lexemes : List Lexeme} (hread : site.lexemes = .ok lexemes) :
    lexemes.Pairwise fun a b => a.line ≤ b.line := by
  unfold Site.lexemes at hread
  split at hread
  · obtain ⟨stop, hsegmented⟩ := Lexeme.readFrom_eq_ok_iff.mp hread
    exact hsegmented.lines.2.imp fun hab => Nat.le_trans (Lexeme.line_le_lastLine _) hab
  · cases hread
    exact .nil

/-- Of some lexemes of a block, those that are filled give the phrases. -/
theorem strings_of_placed {lexemes : List Lexeme} {site : Site} (hread : site.lexemes = .ok lexemes)
    {some : List Lexeme.Placed} (hsome : some ⊆ Lexeme.placed lexemes) :
    List.Forall₂ IsStringOf
      (((some.map (·.lexeme)).filter fun lexeme => IsFilledString lexeme).map (⟨site, ·⟩))
      ((some.filterMap serverString?).map (site, ·)) := by
  induction some with
  | nil => exact .nil
  | cons placed others ih =>
    obtain ⟨hplaced, hothers⟩ := List.cons_subset.mp hsome
    rw [List.map_cons, List.filter_cons, List.filterMap_cons]
    by_cases hfilled : IsFilledString placed.lexeme
    · obtain ⟨phrase, hphrase, hstring⟩ :=
        serverString?_eq_some hread (lines_of_lexemes hread) hplaced hfilled
      rw [if_pos (by simpa using hfilled), hphrase]
      exact .cons hstring (ih hothers)
    · rw [if_neg (by simpa using hfilled), serverString?_eq_none hfilled]
      exact ih hothers

/-- A block that is read gives the phrases of its literals. -/
theorem strings_of_yield {site : Site} (hcode : site.isServerCode = true) (hincluded : site.state ≠ .forceOff)
    {all : List Phrase} (hyield : site.yield rules = .ok all) :
    (∃ lexemes, site.lexemes = .ok lexemes) ∧ (∀ phrase ∈ all, phrase.kind = .serverString) ∧
      List.Forall₂ IsStringOf site.literals (all.map (site, ·)) := by
  unfold Site.isServerCode at hcode
  split at hcode
  · rename_i code hnode
    rw [Site.yield, hnode] at hyield
    simp only [if_neg hincluded] at hyield
    obtain ⟨lexemes, hread, hall⟩ := bind_eq_ok.mp hyield
    have hlexemes : site.lexemes = .ok lexemes := by
      rw [Site.lexemes, hnode]
      exact hread
    have hstrings := strings_of_placed hlexemes (List.Subset.refl _)
    cases hall
    rw [Lexeme.placed, Lexeme.lexemes_placedAfter] at hstrings
    rw [Site.literals, hlexemes]
    exact ⟨⟨lexemes, rfl⟩, kind_of_serverStrings hyield, hstrings⟩
  · cases hcode

/-- No other node gives a phrase of a literal. -/
theorem kind_of_yield {site : Site} (h : ¬ (site.isServerCode = true ∧ site.state ≠ .forceOff))
    {all : List Phrase} (hyield : site.yield rules = .ok all) :
    ∀ phrase ∈ all, phrase.kind ≠ .serverString := by
  intro phrase hphrase
  unfold Site.yield at hyield
  split at hyield
  · rename_i code hnode
    have hcode : site.isServerCode = true := by rw [Site.isServerCode, hnode]
    have hexcluded : site.state = .forceOff := by
      by_contra hincluded
      exact h ⟨hcode, hincluded⟩
    rw [if_pos hexcluded] at hyield
    cases hyield
    cases hphrase
  · cases hyield
    cases hphrase
  · rename_i tag hnode
    rw [← yield_of_element hnode] at hyield
    obtain ⟨-, ⟨hkind | hkind, -⟩ | ⟨name, hkind, -⟩⟩ := cases_of_mem_yield hnode hyield hphrase
    · simp [hkind]
    · simp [hkind]
    · simp [hkind]

/-! ## Some sites -/

/-- The literals among some sites are the phrases of literals that the sites give. -/
theorem strings_of_gather {all : List Site} {harvested : List (Site × Phrase)}
    (h : gather rules all = .ok harvested) :
    List.Forall₂ IsStringOf
      ((all.filter fun site => site.isServerCode && site.state ≠ .forceOff && !site.isCovered rules).flatMap
        Site.literals)
      (harvested.filter fun entry => entry.2.kind = .serverString) := by
  induction all generalizing harvested with
  | nil =>
    cases h
    exact .nil
  | cons site others ih =>
    obtain ⟨here, later, hhere, hlater, rfl⟩ := inOrder_eq_ok.mp h
    rw [List.filter_cons, List.filter_append]
    split
    · rename_i hvisible
      simp only [Bool.and_eq_true, decide_eq_true_eq, Bool.not_eq_true'] at hvisible
      obtain ⟨⟨hcode, hincluded⟩, hopen⟩ := hvisible
      rcases collect_eq_ok hhere with ⟨hcovered, -⟩ | ⟨phrases, -, hyield, rfl⟩
      · rw [hcovered] at hopen
        cases hopen
      · obtain ⟨-, hkind, hstrings⟩ := strings_of_yield hcode hincluded hyield
        have hall : (phrases.map (site, ·)).filter (fun entry => entry.2.kind = .serverString) =
            phrases.map (site, ·) := by
          refine List.filter_eq_self.mpr fun entry hentry => ?_
          obtain ⟨phrase, hphrase, rfl⟩ := List.mem_map.mp hentry
          simp [hkind phrase hphrase]
        rw [hall, List.flatMap_cons]
        exact List.rel_append hstrings (ih hlater)
    · rename_i hhidden
      have hnone : here.filter (fun entry => entry.2.kind = .serverString) = [] := by
        rcases collect_eq_ok hhere with ⟨-, rfl⟩ | ⟨phrases, hopen, hyield, rfl⟩
        · rfl
        · have hplain : ¬ (site.isServerCode = true ∧ site.state ≠ .forceOff) := by
            rintro ⟨hcode, hincluded⟩
            simp [hcode, hincluded, hopen] at hhidden
          rw [List.filter_eq_nil_iff]
          intro entry hentry
          obtain ⟨phrase, hphrase, rfl⟩ := List.mem_map.mp hentry
          simp [kind_of_yield hplain hyield phrase hphrase]
      rw [hnone, List.nil_append]
      exact ih hlater

/-! ## The literals of a page -/

/-- Phrases of literals on one line of a block share their hint. -/
theorem IsStringOf.hint_eq {first second : Literal} {entry entry' : Site × Phrase}
    (h : IsStringOf first entry) (h' : IsStringOf second entry') (hsite : first.site = second.site)
    (hline : first.lexeme.line = second.lexeme.line) : entry.2.hint = entry'.2.hint := by
  obtain ⟨lexemes, head, hread, hhint⟩ := h.hint
  obtain ⟨lexemes', head', hread', hhint'⟩ := h'.hint
  rw [hsite, hread'] at hread
  cases hread
  have hfirst := hhint.first
  rw [hline] at hfirst
  rw [hhint.joined, hhint'.joined, hfirst.unique hhint.mem hhint'.mem hhint'.first]

theorem isVisibleBlock_iff {forest : Forest} {harvested : List (Site × Phrase)}
    (h : harvest rules forest = .ok harvested) {site : Site} (hsite : site ∈ pageSites rules forest) :
    site.IsVisibleBlock rules harvested ↔
      (site.isServerCode && site.state ≠ .forceOff && !site.isCovered rules) = true := by
  have hinside := isInsideUnit_iff h site hsite
  rw [Bool.and_eq_true, Bool.and_eq_true, decide_eq_true_eq, Bool.not_eq_true']
  constructor
  · intro hblock
    have hopen := hblock.outside
    rw [hinside, Bool.not_eq_true] at hopen
    exact ⟨⟨hblock.code, hblock.included⟩, hopen⟩
  · rintro ⟨⟨hcode, hincluded⟩, hopen⟩
    refine ⟨hcode, hincluded, ?_⟩
    rw [hinside, hopen]
    decide

/-- On every page that is read, the phrases of server code are those of the visible literals, in order:
the double-quoted literals with text in them of the blocks that are neither excluded nor inside a unit.
Those on one line of a block share their hint, whose comments have all ended above the line. -/
theorem strings_of_phrases {source : Text} {records : List Phrase} (h : phrases rules source = .ok records) :
    ∃ forest harvested, Forest.ofSource source = .ok forest ∧
      harvest rules forest = .ok harvested ∧ harvested.map Prod.snd = records ∧
      (∀ site ∈ pageSites rules forest, site.IsVisibleBlock rules harvested →
        ∃ lexemes, site.lexemes = .ok lexemes) ∧
      List.Forall₂ IsStringOf (visibleLiterals rules harvested forest)
        (harvested.filter fun entry => entry.2.kind = .serverString) ∧
      ∀ entry ∈ harvested, ∀ entry' ∈ harvested, entry.2.kind = .serverString →
        entry'.2.kind = .serverString → entry.1 = entry'.1 → entry.2.line = entry'.2.line →
          entry.2.hint = entry'.2.hint := by
  obtain ⟨forest, harvested, hforest, hharvest, hrecords⟩ := harvest_of_phrases h
  have hvisible : visibleLiterals rules harvested forest = ((pageSites rules forest).filter fun site =>
      site.isServerCode && site.state ≠ .forceOff && !site.isCovered rules).flatMap Site.literals := by
    rw [visibleLiterals]
    congr 1
    refine List.filter_congr fun site hsite => ?_
    rw [Bool.eq_iff_iff, decide_eq_true_eq, isVisibleBlock_iff hharvest hsite]
  have hstrings := strings_of_gather hharvest
  rw [← hvisible] at hstrings
  refine ⟨forest, harvested, hforest, hharvest, hrecords, ?_, ?_, ?_⟩
  · intro site hsite hblock
    exact (strings_of_yield hblock.code hblock.included
      (yield_of_not_isInsideUnit hharvest hsite hblock.outside)).1
  · exact hstrings
  · intro entry hentry entry' hentry' hkind hkind' hsite hline
    have hliteral : ∀ entry ∈ harvested, entry.2.kind = .serverString →
        ∃ literal, IsStringOf literal entry := by
      intro entry hentry hkind
      exact exists_of_forall₂ hstrings.flip entry (List.mem_filter.mpr ⟨hentry, by simp [hkind]⟩)
    obtain ⟨first, hfirst⟩ := hliteral entry hentry hkind
    obtain ⟨second, hsecond⟩ := hliteral entry' hentry' hkind'
    refine hfirst.hint_eq hsecond ?_ ?_
    · rw [← hfirst.site, ← hsecond.site, hsite]
    · rw [← hfirst.line, ← hsecond.line, hline]

end

/-- Two literals on one line, with a comment above and one behind them. -/
theorem strings_of_phrases_call :
    let source : Text := "<?php\n// a\nf(\"b\", 'x', \"c\"); // d\n?>"
    ∃ forest harvested, Forest.ofSource source = .ok forest ∧
      harvest ⟨"lang", .standard⟩ forest = .ok harvested ∧
      harvested.map Prod.snd =
        [.unkeyed .serverString "b" (some "a") 3, .unkeyed .serverString "c" (some "a") 3] ∧
      (visibleLiterals ⟨"lang", .standard⟩ harvested forest).map (·.lexeme.text) =
        [("\"b\"" : Text), ("\"c\"" : Text)] ∧
      List.Forall₂ IsStringOf (visibleLiterals ⟨"lang", .standard⟩ harvested forest)
        (harvested.filter fun entry => entry.2.kind = .serverString) := by
  intro source
  let code : Text := "php\n// a\nf(\"b\", 'x', \"c\"); // d\n"
  let page : Forest := .leaf (.serverCode code) ⟨0, 1⟩ .nil
  let block : Site := ⟨[], 0, none, .leaf (.serverCode code), ⟨0, 1⟩, .inherit, .nil⟩
  have hpage : Forest.ofSource source = .ok page := by decide +kernel
  have hblock : harvest ⟨"lang", .standard⟩ page =
      .ok [(block, .unkeyed .serverString "b" (some "a") 3),
        (block, .unkeyed .serverString "c" (some "a") 3)] := by decide +kernel
  have hphrases : phrases ⟨"lang", .standard⟩ source =
      .ok [.unkeyed .serverString "b" (some "a") 3, .unkeyed .serverString "c" (some "a") 3] := by
    decide +kernel
  obtain ⟨forest, harvested, hforest, hharvest, hrecords, -, hstrings, -⟩ := strings_of_phrases hphrases
  cases hpage.symm.trans hforest
  cases hblock.symm.trans hharvest
  exact ⟨page, _, hpage, hblock, hrecords, by decide +kernel, hstrings⟩

end Phrasebook.Page
