import Phrasebook.Proofs.Lexeme.Placed
import Phrasebook.Proofs.Lexeme.Segmentation
import Phrasebook.Proofs.Markup.Numbering
import Phrasebook.Proofs.Page.Origin

/-!
# What the fragments of a value hold

A fragment that is noted to be from a part of the page is what that part holds, and the rest of a value is
only what markup is put together with.
-/

namespace Phrasebook.Page

open Markup

/-! ## What a part holds -/

/-- The text is what the part holds, among the nodes of a page in their order. -/
def Part.Holds (nodes : List (Node × Position)) (text : Text) : Part → Prop
  | .text number => ∃ position, nodes[number]? = some (.leaf (.text text), position)
  | .comment number => ∃ position, nodes[number]? = some (.leaf (.comment text), position)
  | .code number => ∃ code position, nodes[number]? = some (.leaf (.serverCode code), position) ∧
    text <:+: code
  | .attr number index => ∃ tag attr position, nodes[number]? = some (.element tag, position) ∧
    tag.attributes[index]? = some attr ∧ (text = Tag.writeAttribute attr ∨ attr.value = some text)

/-- What is written of a node besides its parts: marks, and the names in its tags. -/
inductive Glue (nodes : List (Node × Position)) (number : Nat) : Text → Prop where
  | mark {text : Text} (h : text ∈ [" ".toList, ">", " />", "<!--", "-->", "<?", "?>"]) :
    Glue nodes number text
  | openTag {tag : Tag} {position : Position} (h : nodes[number]? = some (.element tag, position)) :
    Glue nodes number ("<" ++ tag.name)
  | closeTag {tag : Tag} {position : Position} (h : nodes[number]? = some (.element tag, position)) :
    Glue nodes number (endTag tag.name)

/-- The text is from there, among the nodes of a page in their order. -/
def Source.Holds (nodes : List (Node × Position)) (text : Text) : Source → Prop
  | content part => part.Holds nodes text
  | mark number => Glue nodes number text

/-- Each fragment is what its part holds, or else is glue. -/
def Sound (nodes : List (Node × Position)) (fragments : List Fragment) : Prop :=
  ∀ fragment ∈ fragments, fragment.source.Holds nodes fragment.text

/-- The nodes of the forest have the numbers from `first` on. -/
def SitsAt (nodes : List (Node × Position)) (first : Nat) (forest : Forest) : Prop :=
  ∃ before after, nodes = before ++ (forest.placedNodes ++ after) ∧ before.length = first

section

variable {nodes : List (Node × Position)} {a b : List Fragment} {rules : Rules}

theorem sound_append : Sound nodes (a ++ b) ↔ Sound nodes a ∧ Sound nodes b := List.forall_mem_append

@[simp] theorem sound_nil : Sound nodes [] := by simp [Sound]

theorem sound_added {number : Nat} {text : Text} (h : Glue nodes number text) :
    Sound nodes [added number text] :=
  List.forall_mem_singleton.mpr h

theorem sound_singleton {part : Part} {text : Text} (h : part.Holds nodes text) :
    Sound nodes [⟨.content part, text⟩] :=
  List.forall_mem_singleton.mpr h

theorem length_placedNodes (forest : Forest) : forest.placedNodes.length = forest.size := by
  induction forest with
  | nil => rfl
  | leaf l position siblings ih => rw [Forest.placedNodes, List.length_cons, ih, Forest.size, Nat.add_comm]
  | element tag position children siblings ihc ihs =>
    rw [Forest.placedNodes, List.length_cons, List.length_append, ihc, ihs, Forest.size]
    omega

theorem SitsAt.leaf {first : Nat} {l : Leaf} {position : Position} {siblings : Forest}
    (h : SitsAt nodes first (.leaf l position siblings)) :
    nodes[first]? = some (.leaf l, position) ∧ SitsAt nodes (first + 1) siblings := by
  obtain ⟨before, after, rfl, rfl⟩ := h
  refine ⟨by simp [Forest.placedNodes], before ++ [(.leaf l, position)], after, ?_, by simp⟩
  simp [Forest.placedNodes]

theorem SitsAt.element {first : Nat} {tag : Tag} {position : Position} {children siblings : Forest}
    (h : SitsAt nodes first (.element tag position children siblings)) :
    nodes[first]? = some (.element tag, position) ∧ SitsAt nodes (first + 1) children ∧
      SitsAt nodes (first + 1 + children.size) siblings := by
  obtain ⟨before, after, rfl, rfl⟩ := h
  refine ⟨by simp [Forest.placedNodes], ⟨before ++ [(.element tag, position)],
    siblings.placedNodes ++ after, ?_, by simp⟩, before ++ (.element tag, position) :: children.placedNodes,
    after, ?_, ?_⟩
  · simp [Forest.placedNodes]
  · simp [Forest.placedNodes]
  · simp [length_placedNodes]
    omega

theorem sound_tagFragments {number : Nat} {tag : Tag} {position : Position}
    (h : nodes[number]? = some (.element tag, position)) (omitted : Text) :
    Sound nodes (tagFragments omitted number tag) := by
  rw [tagFragments, ← List.singleton_append, sound_append, sound_append]
  refine ⟨sound_added (.openTag h), ?_, sound_added (.mark ?_)⟩
  · intro fragment hfragment
    obtain ⟨⟨attr, index⟩, hattr, rfl⟩ := List.mem_map.mp hfragment
    have hindex := List.mem_zipIdx_iff_getElem?.mp (List.mem_filter.mp hattr).1
    exact ⟨tag, attr, position, h, hindex, .inl rfl⟩
  · split <;> simp

/-- Content between its two marks. -/
theorem sound_between {number : Nat} {part : Part} {content before after : Text}
    (h : part.Holds nodes content) (hbefore : Glue nodes number before) (hafter : Glue nodes number after) :
    Sound nodes [added number before, ⟨.content part, content⟩, added number after] :=
  List.forall_mem_cons.mpr ⟨hbefore, List.forall_mem_cons.mpr ⟨h, sound_added hafter⟩⟩

theorem sound_leafFragments {number : Nat} {l : Leaf} {position : Position}
    (h : nodes[number]? = some (.leaf l, position)) : Sound nodes (leafFragments number l) := by
  cases l with
  | text content => exact sound_singleton ⟨position, h⟩
  | comment content =>
    exact sound_between ⟨position, h⟩ (.mark (by simp)) (.mark (by simp))
  | serverCode code =>
    exact sound_between ⟨code, position, h, List.infix_refl code⟩ (.mark (by simp)) (.mark (by simp))

theorem sound_markupFragments {first : Nat} {forest : Forest} (h : SitsAt nodes first forest)
    (omitted : Text) : Sound nodes (markupFragments omitted first forest) := by
  induction forest generalizing first with
  | nil => exact sound_nil
  | leaf l position siblings ih =>
    obtain ⟨hhere, hsiblings⟩ := h.leaf
    exact sound_append.mpr ⟨sound_leafFragments hhere, ih hsiblings⟩
  | element tag position children siblings ihc ihs =>
    obtain ⟨hhere, hchildren, hsiblings⟩ := h.element
    rw [markupFragments, sound_append, sound_append]
    refine ⟨⟨sound_tagFragments hhere omitted, ?_⟩, ihs hsiblings⟩
    split
    · exact sound_nil
    · exact sound_append.mpr ⟨ihc hchildren, sound_added (.closeTag hhere)⟩

theorem sound_ownFragments {first : Nat} {forest : Forest} (h : SitsAt nodes first forest)
    (parent : ScopeState) : Sound nodes (ownFragments rules parent first forest) := by
  induction forest generalizing parent first with
  | nil => exact sound_nil
  | leaf l position siblings ih =>
    obtain ⟨hhere, hsiblings⟩ := h.leaf
    cases l with
    | text content => exact sound_append.mpr ⟨sound_singleton ⟨position, hhere⟩, ih hsiblings parent⟩
    | comment content => exact ih hsiblings parent
    | serverCode code =>
      exact sound_append.mpr ⟨sound_added (.mark (by simp)), ih hsiblings parent⟩
  | element tag position children siblings ihc ihs =>
    obtain ⟨-, hchildren, hsiblings⟩ := h.element
    rw [ownFragments, sound_append]
    refine ⟨?_, ihs hsiblings parent⟩
    split
    · exact sound_added (.mark (by simp))
    · exact ihc hchildren _

theorem sound_attributeTraces {number : Nat} {tag : Tag} {position : Position}
    (h : nodes[number]? = some (.element tag, position)) {state : ScopeState} {hint : Option Text}
    {line : Nat} :
    ∀ traced ∈ attributeTraces rules state number tag hint line, Sound nodes traced.fragments := by
  unfold attributeTraces
  simp only
  split
  · simpa using sound_tagFragments h _
  · intro traced htraced
    obtain ⟨⟨attr, index⟩, hattr, rfl⟩ := List.mem_map.mp htraced
    obtain ⟨hindex, htranslatable⟩ := List.mem_filter.mp hattr
    refine sound_singleton ⟨tag, attr, position, h, List.mem_zipIdx_iff_getElem?.mp hindex, .inr ?_⟩
    -- An attribute without a value is not translatable.
    cases hvalue : attr.value with
    | some value => rfl
    | none => simp [isTranslatableAttribute, hvalue] at htranslatable
  · simp

theorem sound_visitTraces {number : Nat} {tag : Tag} {position : Position} {children : Forest}
    (htag : nodes[number]? = some (.element tag, position))
    (hchildren : SitsAt nodes (number + 1) children) {state : ScopeState} {delegate : Option Nat}
    {hint : Option Text} {line : Nat} :
    ∀ traced ∈ visitTraces rules state number tag children delegate hint line,
      Sound nodes traced.fragments := by
  rcases visitTraces_cases rules state number tag children delegate hint line with
    hvisit | hvisit | ⟨content, -, hvisit, -⟩
  · simp [hvisit]
  · rw [hvisit]
    exact sound_attributeTraces htag
  · rw [hvisit, List.forall_mem_singleton]
    cases content with
    | text value => exact sound_ownFragments hchildren state
    | markup value => exact sound_markupFragments hchildren _

theorem sound_leafTraces {number : Nat} {l : Leaf} {position position' : Position} {parent : ScopeState}
    (hleaf : nodes[number]? = some (.leaf l, position')) {all : List Traced}
    (h : leafTraces parent number position l = .ok all) :
    ∀ traced ∈ all, Sound nodes traced.fragments := by
  rcases leafTraces_cases h with rfl | ⟨code, lexemes, rfl, hread, rfl⟩
  · simp
  · obtain ⟨stop, hsegmented⟩ := Lexeme.readFrom_eq_ok_iff.mp hread
    intro traced htraced
    obtain ⟨placed, hplaced, hserver⟩ := List.mem_filterMap.mp htraced
    obtain ⟨phrase, hphrase, rfl⟩ := Option.map_eq_some_iff.mp hserver
    have htext := hsegmented.text_inside _ (Lexeme.mem_of_mem_placedAfter hplaced)
    exact sound_singleton ⟨code, position', hleaf, (body_inside hphrase).trans htext⟩

theorem sound_traces {first : Nat} {forest : Forest} (hforest : SitsAt nodes first forest)
    {parent : ScopeState} {takeovers : List Takeover} {comment : Option Text} {all : List Traced}
    (h : traces rules parent takeovers first comment forest = .ok all) :
    ∀ traced ∈ all, Sound nodes traced.fragments := by
  induction forest generalizing parent takeovers first comment all with
  | nil =>
    cases h
    simp
  | leaf l position siblings ih =>
    obtain ⟨hhere, hsiblings⟩ := hforest.leaf
    obtain ⟨here, later, hleaf, hlater, rfl⟩ := inOrder_eq_ok.mp h
    exact List.forall_mem_append.mpr ⟨sound_leafTraces hhere hleaf, ih hsiblings hlater⟩
  | element tag position children siblings ihc ihs =>
    obtain ⟨hhere, hchildren, hsiblings⟩ := hforest.element
    obtain ⟨here, others, hvisit, hothers, rfl⟩ := inOrder_eq_ok.mp h
    obtain ⟨below, later, hbelow, hlater, rfl⟩ := inOrder_eq_ok.mp hothers
    cases hvisit
    refine List.forall_mem_append.mpr ⟨sound_visitTraces hhere hchildren,
      List.forall_mem_append.mpr ⟨?_, ihs hsiblings hlater⟩⟩
    rcases below_cases hbelow with rfl | hbelow
    · simp
    · exact ihc hchildren hbelow

end

end Phrasebook.Page
