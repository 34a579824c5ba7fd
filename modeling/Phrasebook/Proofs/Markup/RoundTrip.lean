import Phrasebook.Markup.Outline
import Phrasebook.Proofs.Markup.Building
import Phrasebook.Proofs.Markup.Written

/-!
# The markup inside a node

The tokens of a written forest are hung up again as they stood: each end tag closes the element that it
was written for, and nothing is closed early. So what is written of the inside of a node is read as the
same nodes, unless raw text loses the element that kept it from being read as markup.
-/

namespace Phrasebook.Markup

open Text Piece

/-! ## Nodes without their places -/

namespace Forest

/-- The nodes with every place set to the beginning of a page. -/
def unplaced : Forest → Forest
  | nil => nil
  | leaf l _ siblings => leaf l .start siblings.unplaced
  | element tag _ children siblings => element tag .start children.unplaced siblings.unplaced

theorem legal_without {parent : Option Text} {forest : Forest} (h : forest.Legal parent)
    (omitted : Text) : (forest.without omitted).Legal parent := by
  induction forest generalizing parent with
  | nil => trivial
  | leaf l position siblings ih =>
    obtain ⟨hl, hnil, hs⟩ := h
    refine ⟨hl, ?_, ih hs⟩
    intro hraw
    rw [hnil hraw]
    rfl
  | element tag position children siblings ihc ihs =>
    obtain ⟨hraw, ht, hterm, hempty, hc, hs⟩ := h
    refine ⟨hraw, ht.without omitted, hterm, ?_, ihc hc, ihs hs⟩
    intro he
    rw [hempty he]
    rfl

theorem reverse_reverseOnto (behind forest : Forest) :
    (reverseOnto behind forest).reverse = reverseOnto forest behind := by
  induction forest generalizing behind with
  | nil => rfl
  | leaf l position siblings ih => exact ih _
  | element tag position children siblings _ ih => exact ih _

end Forest

/-! ## Building -/

namespace Builder

theorem makeWayFor_eq_self {builder : Builder} {name : Text}
    (h : isSelfTerminating name = true → innermostName builder.opened ≠ some name) :
    builder.makeWayFor name = builder := by
  obtain ⟨finished, opened⟩ := builder
  unfold makeWayFor
  rw [if_neg]
  rintro ⟨hterm, hhead⟩
  cases opened with
  | nil => cases hhead
  | cons innermost outer =>
    apply h hterm
    simpa [innermostName] using hhead

theorem add_openTag {tag : Tag} {opened : List OpenElement}
    (h : isSelfTerminating tag.name = true → innermostName opened ≠ some tag.name)
    (finished : Forest) (position : Position) :
    add ⟨finished, opened⟩ ⟨.openTag tag, position⟩ =
      .ok (if tag.isEmpty then ⟨.element tag position .nil finished, opened⟩
        else ⟨.nil, ⟨tag, position, finished⟩ :: opened⟩) := by
  change Except.ok (openElement ⟨finished, opened⟩ tag position) = _
  rw [openElement, makeWayFor_eq_self h]

theorem add_closeTag_innermost (finished : Forest) (innermost : OpenElement)
    (outer : List OpenElement) (hvoid : isVoid innermost.tag.name = false) (position : Position) :
    add ⟨finished, innermost :: outer⟩ ⟨.closeTag innermost.tag.name, position⟩ =
      .ok (close ⟨finished, innermost :: outer⟩) := by
  simp [add, hvoid, closeElement, List.findIdx?_cons, innermostRequired?, closeMany,
    Except.mapError]

theorem add_openTag_first (tag : Tag) (position : Position) :
    add empty ⟨.openTag tag, position⟩ =
      .ok (if tag.isEmpty then ⟨.element tag position .nil .nil, []⟩
        else ⟨.nil, [⟨tag, position, .nil⟩]⟩) :=
  add_openTag (by simp [innermostName]) .nil position

/-- An element between its own two tags, with all that stands between them, is the whole page. -/
theorem ofTokens_alone {tag : Tag} {inner : List Placed} {finished : Forest}
    {position position' : Position} (hempty : tag.isEmpty = false)
    (h : inner.foldlM add ⟨.nil, [⟨tag, position, .nil⟩]⟩ =
      .ok ⟨finished, [⟨tag, position, .nil⟩]⟩) :
    Forest.ofTokens
        ⟨⟨.openTag tag, position⟩ :: (inner ++ [⟨.closeTag tag.name, position'⟩]), none⟩ =
      .ok (.element tag position finished.reverse .nil) := by
  have hvoid : isVoid tag.name = false := by
    simp only [Tag.isEmpty, Bool.or_eq_false_iff] at hempty
    exact hempty.2
  have hopen := add_openTag_first tag position
  rw [hempty, if_neg (by simp)] at hopen
  have hclose := add_closeTag_innermost finished ⟨tag, position, .nil⟩ [] hvoid position'
  refine ofTokens_eq_ok_iff.mpr ⟨⟨.element tag position finished.reverse .nil, []⟩, ?_, rfl, rfl⟩
  rw [foldlM_add_cons hopen, foldlM_add_append h, foldlM_add_cons hclose]
  rfl

/-- The tokens of a legal forest put its nodes behind those that are finished. -/
theorem foldlM_add_tokens {forest : Forest} {opened : List OpenElement}
    (h : forest.Legal (innermostName opened)) (finished : Forest) {placed : List Placed}
    (htokens : placed.map (·.token) = forest.tokens) :
    ∃ built : Forest, built.unplaced = forest.unplaced ∧
      placed.foldlM add ⟨finished, opened⟩ = .ok ⟨Forest.reverseOnto finished built, opened⟩ := by
  induction forest generalizing opened finished placed with
  | nil =>
    obtain rfl := List.map_eq_nil_iff.mp htokens
    exact ⟨.nil, rfl, rfl⟩
  | leaf l position siblings ih =>
    obtain ⟨⟨_, position'⟩, later, rfl, rfl, hlater⟩ := List.map_eq_cons_iff.mp htokens
    obtain ⟨built, hbuilt, hrun⟩ := ih h.2.2 (.leaf l position' finished) hlater
    refine ⟨.leaf l position' built, ?_, hrun⟩
    rw [Forest.unplaced, hbuilt]
    rfl
  | element tag position children siblings ihc ihs =>
    obtain ⟨-, -, hterm, hempty, hc, hs⟩ := h
    obtain ⟨⟨_, position'⟩, later, rfl, rfl, hlater⟩ := List.map_eq_cons_iff.mp htokens
    obtain ⟨below, behind, rfl, hbelow, hbehind⟩ := List.map_eq_append_iff.mp hlater
    -- It is enough that the element itself and what is inside are put together.
    suffices hself : ∃ inside : Forest, inside.unplaced = children.unplaced ∧
        (⟨.openTag tag, position'⟩ :: below).foldlM add ⟨finished, opened⟩ =
          .ok ⟨.element tag position' inside finished, opened⟩ by
      obtain ⟨inside, hinside, hrun⟩ := hself
      obtain ⟨built, hbuilt, hrun'⟩ := ihs hs (.element tag position' inside finished) hbehind
      refine ⟨.element tag position' inside built, ?_, ?_⟩
      · rw [Forest.unplaced, hinside, hbuilt]
        rfl
      · rw [← List.cons_append, foldlM_add_append hrun]
        exact hrun'
    rw [foldlM_add_cons (add_openTag hterm finished position')]
    cases he : tag.isEmpty with
    | true =>
      rw [he, if_pos rfl] at hbelow
      obtain rfl := List.map_eq_nil_iff.mp hbelow
      rw [hempty he]
      exact ⟨.nil, rfl, rfl⟩
    | false =>
      rw [he, if_neg (by simp)] at hbelow
      obtain ⟨content, closing, rfl, hcontent, hclosing⟩ := List.map_eq_append_iff.mp hbelow
      obtain ⟨⟨_, position''⟩, _, rfl, rfl, hnil⟩ := List.map_eq_cons_iff.mp hclosing
      obtain rfl := List.map_eq_nil_iff.mp hnil
      have hc' : children.Legal (innermostName (⟨tag, position', finished⟩ :: opened)) := hc
      obtain ⟨inside, hinside, hrun⟩ := ihc hc' .nil hcontent
      refine ⟨inside, hinside, ?_⟩
      have hvoid : isVoid tag.name = false := by
        simp only [Tag.isEmpty, Bool.or_eq_false_iff] at he
        exact he.2
      have hclose := add_closeTag_innermost (Forest.reverseOnto .nil inside)
        ⟨tag, position', finished⟩ opened hvoid position''
      rw [if_neg (by simp), foldlM_add_append hrun, foldlM_add_cons hclose, close]
      simp only [Forest.reverse_reverseOnto]
      rfl

end Builder

namespace Forest

/-- What is written of nodes that may stand at the top of a page is a page of the same nodes. -/
theorem ofSource_write {forest : Forest} (h : forest.Legal none)
    (hadj : forest.noAdjacentTexts = true) (omitted : Text) :
    ∃ built, ofSource (forest.write omitted) = .ok built ∧
      built.unplaced = (forest.without omitted).unplaced := by
  obtain ⟨placed, position, htokens, hstream⟩ :=
    reads_write h rfl hadj omitted (Or.inl rfl : EndsText []) .start
  rw [List.append_nil, Reader.stream_nil] at hstream
  have hlegal : (forest.without omitted).Legal (innermostName []) := legal_without h omitted
  obtain ⟨built, hbuilt, hrun⟩ := Builder.foldlM_add_tokens hlegal .nil htokens
  refine ⟨built, ?_, hbuilt⟩
  have htext : TokenStream.ofSource (forest.write omitted) = ⟨placed, none⟩ := by
    rw [TokenStream.ofSource, Reader.ofSource, hstream, List.append_nil]
  have hfinish : Builder.finish ⟨reverseOnto .nil built, []⟩ = .ok built := by
    change Except.ok (reverseOnto .nil built).reverse = .ok built
    rw [reverse_reverseOnto]
    rfl
  rw [ofSource, htext, ofTokens, Builder.empty, hrun]
  exact hfinish

/-! ## The nodes of a page -/

/-- All nodes by number, each with the nodes directly inside it. -/
def nodes : Forest → List (Node × Forest)
  | nil => []
  | leaf l _ siblings => (.leaf l, nil) :: siblings.nodes
  | element tag _ children siblings =>
    (.element tag, children) :: (children.nodes ++ siblings.nodes)

/-- An outline has one row for each node, with the markup of the nodes inside. -/
theorem map_rows (omitted : Text) (forest : Forest) (parent : Option Nat) (first : Nat)
    (comment : Option Text) :
    (forest.rows omitted parent first comment).map (fun row => (row.node, row.inner)) =
      forest.nodes.map fun (node, children) => (node, children.write omitted) := by
  induction forest generalizing parent first comment with
  | nil => rfl
  | leaf l position siblings ih =>
    rw [rows, nodes, List.map_cons, List.map_cons, ih]
    rfl
  | element tag position children siblings ihc ihs =>
    rw [rows, nodes, List.map_cons, List.map_cons, List.map_append, List.map_append, ihc, ihs]

theorem exists_row {forest children : Forest} {number : Nat} {node : Node}
    (h : forest.nodes[number]? = some (node, children)) (omitted : Text) :
    ∃ row, (forest.outline omitted)[number]? = some row ∧ row.node = node ∧
      row.inner = children.write omitted := by
  have hmap := congrArg (·[number]?) (map_rows omitted forest none 0 none)
  simp only [List.getElem?_map, h, Option.map_some] at hmap
  obtain ⟨row, hrow, heq⟩ := Option.map_eq_some_iff.mp hmap
  simp only [Prod.mk.injEq] at heq
  exact ⟨row, hrow, heq.1, heq.2⟩

/-- What can stand inside a node. -/
def LegalInside (node : Node) (children : Forest) : Prop :=
  match node with
  | .leaf _ => children = nil
  | .element tag => (tag.isEmpty = true → children = nil) ∧ children.Legal (some tag.name)

theorem legalInside_of_mem {parent : Option Text} {forest : Forest} (h : forest.Legal parent) :
    ∀ entry ∈ forest.nodes, LegalInside entry.1 entry.2 := by
  induction forest generalizing parent with
  | nil => simp [nodes]
  | leaf l position siblings ih =>
    rw [nodes, List.forall_mem_cons]
    exact ⟨rfl, ih h.2.2⟩
  | element tag position children siblings ihc ihs =>
    obtain ⟨-, -, -, hempty, hc, hs⟩ := h
    rw [nodes, List.forall_mem_cons, List.forall_mem_append]
    exact ⟨⟨hempty, hc⟩, ihc hc, ihs hs⟩

/-! ## Raw text -/

def holdsMarkup (text : Text) : Bool := (breakWhere? startsMarkup text).isSome

/-- Whether a node holds raw text that would be read as markup in another place. -/
def holdsRawMarkup : Node → Forest → Bool
  | .element tag, leaf (.text content) _ _ => tag.startsRawText && holdsMarkup content
  | _, _ => false

theorem plainText_iff {content : Text} :
    PlainText content ↔ content ≠ [] ∧ holdsMarkup content = false := by
  rw [holdsMarkup, ← Bool.not_eq_true, Option.not_isSome_iff_eq_none, breakWhere?_eq_none_iff]
  simp [PlainText, startsMarkup]

theorem startsRawText_of_not_isEmpty {tag : Tag} (h : tag.isEmpty = false) :
    tag.startsRawText = isRawText tag.name := by
  simp only [Tag.isEmpty, Bool.or_eq_false_iff] at h
  rw [Tag.startsRawText, h.1, Bool.not_false, Bool.true_and]

theorem holdsRawMarkup_of_not_isRawText {tag : Tag} (h : isRawText tag.name = false)
    (children : Forest) : holdsRawMarkup (.element tag) children = false := by
  have hstart : tag.startsRawText = false := by rw [Tag.startsRawText, h, Bool.and_false]
  rcases children with _ | ⟨_ | _ | _, _, _⟩ | _
  · rfl
  · rw [holdsRawMarkup, hstart, Bool.false_and]
  · rfl
  · rfl
  · rfl

/-- Raw text is the only thing that cannot stand at the top of a page. -/
theorem legal_inside_iff {node : Node} {children : Forest} (h : LegalInside node children) :
    children.Legal none ↔ holdsRawMarkup node children = false := by
  cases node with
  | leaf l =>
    obtain rfl := h
    exact ⟨fun _ => rfl, fun _ => trivial⟩
  | element tag =>
    obtain ⟨hempty, hc⟩ := h
    cases hname : isRawText tag.name with
    | false =>
      have hraw := rawName_some_eq_none.mpr hname
      exact ⟨fun _ => holdsRawMarkup_of_not_isRawText hname children, fun _ => hc.anywhere hraw⟩
    | true =>
      rcases hc.raw_cases hname with rfl | ⟨content, position, rfl, hcontent⟩
      · exact ⟨fun _ => rfl, fun _ => trivial⟩
      · have hclosing : tag.isEmpty = false := by
          rw [Bool.eq_false_iff]
          intro he
          cases hempty he
        have hplain : PlainText content ↔ holdsMarkup content = false := by
          rw [plainText_iff]
          exact ⟨fun h => h.2, fun h => ⟨hcontent.1, h⟩⟩
        rw [holdsRawMarkup, startsRawText_of_not_isEmpty hclosing, hname, Bool.true_and, ← hplain]
        constructor
        · intro h
          exact h.1
        · intro h
          exact ⟨h, fun _ => rfl, trivial⟩

/-! ## Reading the inside of a node again -/

/-- A page does not begin with a text that holds markup, whatever was written of it. -/
theorem not_holdsRawMarkup {node : Node} {children built : Forest} {omitted : Text}
    (h : built.Legal none) (hbuilt : built.unplaced = (children.without omitted).unplaced) :
    holdsRawMarkup node children = false := by
  unfold holdsRawMarkup
  split
  · rename_i tag content position siblings
    rw [without, unplaced] at hbuilt
    cases built with
    | nil => cases hbuilt
    | element _ _ _ _ => cases hbuilt
    | leaf l position' siblings' =>
      rw [unplaced, leaf.injEq] at hbuilt
      obtain ⟨rfl, -, -⟩ := hbuilt
      rw [(plainText_iff.mp h.1).2, Bool.and_false]
  · rfl

/-- What is written of the inside of a node is read as the same nodes without the omitted attributes,
except for raw text that holds markup. -/
theorem ofSource_inner_iff {source : Text} {forest children : Forest} {number : Nat} {node : Node}
    (hsource : ofSource source = .ok forest)
    (hnode : forest.nodes[number]? = some (node, children))
    (hadj : children.noAdjacentTexts = true) (omitted : Text) :
    ∃ row, (forest.outline omitted)[number]? = some row ∧ row.node = node ∧
      ((∃ built, ofSource row.inner = .ok built ∧
          built.unplaced = (children.without omitted).unplaced) ↔
        holdsRawMarkup node children = false) := by
  obtain ⟨row, hrow, hsame, hinner⟩ := exists_row hnode omitted
  refine ⟨row, hrow, hsame, ?_⟩
  rw [hinner]
  have hinside := legalInside_of_mem (legal_of_ofSource hsource) _
    (List.mem_of_getElem? hnode)
  constructor
  · rintro ⟨built, hread, hbuilt⟩
    exact not_holdsRawMarkup (legal_of_ofSource hread) hbuilt
  · intro hplain
    exact ofSource_write ((legal_inside_iff hinside).mpr hplain) hadj omitted

/-- A list whose first item is closed by the second one. -/
theorem ofSource_inner_list :
    ∃ forest items row, ofSource "<ul><li lang=x title='\"'>a<li>b<br></ul>" = .ok forest ∧
      forest.nodes[0]? = some (.element ⟨"ul", [], false⟩, items) ∧
      (forest.outline "lang")[0]? = some row ∧
      ∃ built, ofSource row.inner = .ok built ∧
        built.unplaced = (items.without "lang").unplaced := by
  have hsource : ofSource "<ul><li lang=x title='\"'>a<li>b<br></ul>" =
      .ok (element ⟨"ul", [], false⟩ ⟨0, 1⟩
        (element ⟨"li", [⟨"lang", some "x"⟩, ⟨"title", some "\""⟩], false⟩ ⟨4, 1⟩
          (leaf (.text "a") ⟨25, 1⟩ nil)
        (element ⟨"li", [], false⟩ ⟨26, 1⟩
          (leaf (.text "b") ⟨30, 1⟩ (element ⟨"br", [], false⟩ ⟨31, 1⟩ nil nil)) nil)) nil) := by
    decide +kernel
  obtain ⟨row, hrow, -, hread⟩ := @ofSource_inner_iff _ _ _ 0 _ hsource rfl rfl "lang"
  exact ⟨_, _, row, hsource, rfl, hrow, hread.mpr rfl⟩

/-- The inside of a script is read as markup once the script around it is gone. -/
theorem ofSource_inner_script :
    ∃ forest content row, ofSource "<script>a<b</script>" = .ok forest ∧
      forest.nodes[0]? = some (.element ⟨"script", [], false⟩, content) ∧
      content.noAdjacentTexts = true ∧ (forest.outline "lang")[0]? = some row ∧
      ¬ ∃ built, ofSource row.inner = .ok built ∧
        built.unplaced = (content.without "lang").unplaced := by
  have hsource : ofSource "<script>a<b</script>" =
      .ok (element ⟨"script", [], false⟩ ⟨0, 1⟩ (leaf (.text "a<b") ⟨8, 1⟩ nil) nil) := by
    decide +kernel
  refine ⟨_, _, _, hsource, rfl, rfl, rfl, ?_⟩
  rintro ⟨built, hread, -⟩
  have hfault : ofSource "a<b" = .error ⟨.unterminatedTag, ⟨1, 1⟩⟩ := by decide +kernel
  exact absurd (hfault.symm.trans hread) (by simp)

end Forest

end Phrasebook.Markup
