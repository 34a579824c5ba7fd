import Phrasebook.Proofs.Markup.Place
import Phrasebook.Proofs.Page.Inside
import Phrasebook.Proofs.Table.Place

/-!
# The places of a page's phrases

A phrase of an element stands where the start tag does, and one of server code where its literal does.
Inside a block the places go on counting from the beginning of the page, so the faults there do too.
-/

namespace Phrasebook.Page

open Markup Text

/-! ## Sites -/

theorem mem_placedNodes_of_mem_sites {rules : Rules} {base : ScopeState} {outers : List Outer}
    {first : Nat} {comment : Option Text} {forest : Forest} :
    ∀ site ∈ sites rules base outers first comment forest,
      (site.node, site.position) ∈ forest.placedNodes := by
  induction forest generalizing outers first comment with
  | nil => simp [sites]
  | leaf l position siblings ih =>
    rw [sites, List.forall_mem_cons, Forest.placedNodes]
    exact ⟨List.mem_cons_self, fun site hsite => List.mem_cons_of_mem _ (ih site hsite)⟩
  | element tag position children siblings ihc ihs =>
    rw [sites, List.forall_mem_cons, List.forall_mem_append, Forest.placedNodes]
    refine ⟨List.mem_cons_self, ?_, ?_⟩
    · exact fun site hsite => List.mem_cons_of_mem _ (List.mem_append_left _ (ihc site hsite))
    · exact fun site hsite => List.mem_cons_of_mem _ (List.mem_append_right _ (ihs site hsite))

/-- A harvest fails at a site that fails. -/
theorem exists_of_gather_error {rules : Rules} {all : List Site} {fault : Fault}
    (h : gather rules all = .error fault) : ∃ site ∈ all, site.yield rules = .error fault := by
  induction all with
  | nil => cases h
  | cons site others ih =>
    rw [gather] at h
    rcases bind_eq_error.mp h with hcollect | ⟨here, -, hothers⟩
    · refine ⟨site, List.mem_cons_self, ?_⟩
      unfold Site.collect at hcollect
      split at hcollect
      · cases hcollect
      · exact map_eq_error.mp hcollect
    · obtain ⟨site', hsite', hyield⟩ := ih (map_eq_error.mp hothers)
      exact ⟨site', List.mem_cons_of_mem _ hsite', hyield⟩

/-! ## Server code -/

theorem serverStrings_eq_error {position : Position} {code : Text} {fault : Fault}
    (h : serverStrings position code = .error fault) :
    Lexeme.readFrom (position.advance "<?") code = .error fault := by
  rcases bind_eq_error.mp h with hread | ⟨lexemes, -, hnone⟩
  · exact hread
  · cases hnone

/-- The phrases of a block are its double-quoted literals, each with the line of its literal. -/
theorem exists_of_serverStrings {position : Position} {code : Text} {all : List Phrase}
    (h : serverStrings position code = .ok all) :
    ∃ lexemes, Lexeme.readFrom (position.advance "<?") code = .ok lexemes ∧
      ∀ phrase ∈ all, ∃ lexeme ∈ lexemes, lexeme.kind = .quoted .double ∧
        phrase.kind = .serverString ∧ phrase.value = Escape.decode .cFamily lexeme.body ∧
        phrase.line = lexeme.line := by
  obtain ⟨lexemes, hread, hall⟩ := bind_eq_ok.mp h
  cases hall
  refine ⟨lexemes, hread, ?_⟩
  intro phrase hphrase
  obtain ⟨placed, hplaced, hstring⟩ := List.mem_filterMap.mp hphrase
  refine ⟨placed.lexeme, Lexeme.mem_of_mem_placedAfter hplaced, ?_⟩
  unfold serverString? at hstring
  simp only at hstring
  split at hstring
  · rename_i hliteral
    cases hstring
    exact ⟨hliteral.1, rfl, rfl, rfl⟩
  · cases hstring

/-! ## Phrases and faults -/

/-- The phrase has the line of what it was taken from, which stands in the source where it says: the
start tag of the element, or the literal inside the block. -/
inductive Site.IsAt (source : Text) (site : Site) (phrase : Phrase) : Prop where
  | element {inside behind : Text} (node : site.node = .element (.read inside))
    (place : site.position.PointsAt source ("<" ++ inside ++ ">" ++ behind))
    (kind : phrase.kind ≠ .serverString) (line : phrase.line = site.position.line)
  | literal {code behind later : Text} {lexemes : List Lexeme} {lexeme : Lexeme}
    (node : site.node = .leaf (.serverCode code))
    (block : site.position.PointsAt source ("<?" ++ code ++ "?>" ++ behind))
    (read : Lexeme.readFrom (site.position.advance "<?") code = .ok lexemes) (mem : lexeme ∈ lexemes)
    (quoted : lexeme.text = "\"" ++ lexeme.body ++ "\"")
    (place : lexeme.position.PointsAt source (lexeme.text ++ later))
    (kind : phrase.kind = .serverString) (line : phrase.line = lexeme.position.line)
    (value : phrase.value = Escape.decode .cFamily lexeme.body)

theorem line_of_visitElement {rules : Rules} {state : ScopeState} {tag : Tag} {children : Forest}
    {delegate : Option Nat} {hint : Option Text} {line : Nat} :
    ∀ phrase ∈ (visitElement rules state tag children delegate hint line).phrases,
      phrase.line = line ∧ phrase.kind ≠ .serverString := by
  intro phrase hphrase
  rcases visitElement_cases rules state tag children delegate hint line with
    hvisit | ⟨-, hvisit⟩ | ⟨content, -, -, hvisit⟩
  · rw [hvisit] at hphrase
    cases hphrase
  · rw [hvisit] at hphrase
    unfold attributePhrases at hphrase
    simp only at hphrase
    split at hphrase
    · rw [List.mem_singleton] at hphrase
      subst hphrase
      exact ⟨rfl, by simp [Phrase.unkeyed]⟩
    · obtain ⟨attr, -, rfl⟩ := List.mem_map.mp hphrase
      exact ⟨rfl, by simp [Phrase.unkeyed]⟩
    · cases hphrase
  · rw [hvisit, List.mem_singleton] at hphrase
    subst hphrase
    cases content <;> exact ⟨rfl, by simp [Content.phrase, Phrase.unkeyed]⟩

section

variable {rules : Rules} {source : Text} {forest : Forest} {site : Site}

theorem isAt_of_yield (hforest : Forest.ofSource source = .ok forest)
    (hsite : site ∈ pageSites rules forest) {all : List Phrase} (h : site.yield rules = .ok all) :
    ∀ phrase ∈ all, site.IsAt source phrase := by
  have hnode := mem_placedNodes_of_mem_sites site hsite
  obtain ⟨outers, number, comment, node, position, state, children⟩ := site
  intro phrase hphrase
  cases node with
  | element tag =>
    cases h
    obtain ⟨inside, behind, rfl, hplace⟩ := Forest.pointsAt_element hforest hnode
    obtain ⟨hline, hkind⟩ := line_of_visitElement phrase hphrase
    exact .element rfl hplace hkind hline
  | leaf l =>
    cases l with
    | text content => cases h; cases hphrase
    | comment content => cases h; cases hphrase
    | serverCode code =>
      simp only [Site.yield] at h
      split at h
      · cases h
        cases hphrase
      · obtain ⟨behind, hblock⟩ := Forest.pointsAt_serverCode hforest hnode
        obtain ⟨lexemes, hread, hall⟩ := exists_of_serverStrings h
        obtain ⟨lexeme, hlexeme, hquoted, hkind, hvalue, hline⟩ := hall phrase hphrase
        have hinside : (position.advance "<?").PointsAt source (code ++ ("?>" ++ behind)) := by
          simp only [List.append_assoc] at hblock
          exact hblock.advance
        obtain ⟨htoken, later, hplace⟩ := Lexeme.pointsAt_of_readFrom hinside hread lexeme hlexeme
        have htext := Lexeme.text_of_quoted hquoted htoken
        exact .literal rfl hblock hread hlexeme htext hplace hkind hline hvalue

theorem isIn_of_yield_error (hforest : Forest.ofSource source = .ok forest)
    (hsite : site ∈ pageSites rules forest) {fault : Fault} (h : site.yield rules = .error fault) :
    fault.position.IsIn source := by
  have hnode := mem_placedNodes_of_mem_sites site hsite
  obtain ⟨outers, number, comment, node, position, state, children⟩ := site
  cases node with
  | element tag => cases h
  | leaf l =>
    cases l with
    | text content => cases h
    | comment content => cases h
    | serverCode code =>
      simp only [Site.yield] at h
      split at h
      · cases h
      · obtain ⟨behind, hblock⟩ := Forest.pointsAt_serverCode hforest hnode
        simp only [List.append_assoc] at hblock
        exact Lexeme.isIn_of_readFrom_error hblock.advance (serverStrings_eq_error h)

theorem isIn_of_phrases_error {fault : Fault} (h : phrases rules source = .error fault) :
    fault.position.IsIn source := by
  rcases bind_eq_error.mp h with hforest | ⟨forest, hforest, hwalk⟩
  · exact Forest.isIn_of_ofSource_error hforest
  · rw [walk_eq_harvest] at hwalk
    obtain ⟨site, hsite, hyield⟩ := exists_of_gather_error (map_eq_error.mp hwalk)
    exact isIn_of_yield_error hforest hsite hyield

end

end Phrasebook.Page
