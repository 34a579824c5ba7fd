import Phrasebook.Proofs.Markup.Numbering
import Phrasebook.Proofs.Markup.Segments
import Phrasebook.Proofs.Position

/-!
# The places on a page

A token stands where its segment begins, and a node where its token does. So a page that is refused is
refused at a token, or where the tokens end too early.
-/

namespace Phrasebook.Markup

open Text

/-! ## Tokens -/

/-- The token is spelled in the source at its place. -/
def Placed.IsAt (source : Text) (placed : Placed) : Prop :=
  ∃ raw text behind, Spells raw behind text (some placed.token) ∧
    placed.position.PointsAt source (text ++ behind)

theorem Placed.IsAt.isIn {source : Text} {placed : Placed} (h : placed.IsAt source) :
    placed.position.IsIn source := by
  obtain ⟨raw, text, behind, hspells, hpoints⟩ := h
  exact hpoints.isIn hspells.ne_nil

theorem pointsAt_placeBehind (before rest : Text) :
    (placeBehind before).PointsAt (before ++ rest) rest := ⟨before, rfl, rfl⟩

theorem isAt_of_allSpelled {left : Text} {raw : Option Text} {segments : List Segment}
    (h : AllSpelled left raw segments) (before : Text) :
    ∀ token ∈ placed before segments, token.IsAt (before ++ (covered segments ++ left)) := by
  induction segments generalizing raw before with
  | nil => simp [placed]
  | cons segment later ih =>
    obtain ⟨hspells, hlater⟩ := h
    rw [placed, covered_cons, List.append_assoc, List.forall_mem_append]
    constructor
    · intro token htoken
      rw [Option.mem_toList] at htoken
      obtain ⟨read, hread, rfl⟩ := Option.map_eq_some_iff.mp htoken
      rw [hread] at hspells
      exact ⟨raw, segment.text, _, hspells, pointsAt_placeBehind before _⟩
    · rw [← List.append_assoc]
      exact ih hlater (before ++ segment.text)

theorem Unterminated.ne_nil {left : Text} {cause : Fault.Cause} (h : Unterminated left cause) :
    left ≠ [] := by
  cases h <;> simp

/-- The tokens of a page stand where they say, and so does the fault that ends them. -/
theorem isAt_of_ofSource (source : Text) :
    (∀ token ∈ (TokenStream.ofSource source).tokens, token.IsAt source) ∧
      ∀ fault, (TokenStream.ofSource source).fault = some fault → fault.position.IsIn source := by
  obtain ⟨segments, left, rfl, hspelled, htokens, -, hstopped⟩ :=
    Reader.exists_segments [] source none
  have hstream : Reader.stream ⟨covered segments ++ left, placeBehind [], none⟩ =
      TokenStream.ofSource (covered segments ++ left) := rfl
  rw [hstream] at htokens hstopped
  rw [htokens]
  refine ⟨isAt_of_allSpelled hspelled [], ?_⟩
  intro fault hfault
  obtain ⟨hunterminated, hposition⟩ := hstopped fault hfault
  have hpoints : fault.position.PointsAt (covered segments ++ left) (left ++ []) := by
    rw [hposition, List.append_nil]
    exact pointsAt_placeBehind (covered segments) left
  exact hpoints.isIn hunterminated.ne_nil

/-! ## Nodes -/

/-- The token that makes a node. -/
def Node.token : Node → Token
  | .leaf l => .leaf l
  | .element tag => .openTag tag

theorem mem_of_mem_nodes {tokens : List Placed} {node : Node} {position : Position}
    (h : (node, position) ∈ tokens.filterMap Placed.node?) : ⟨node.token, position⟩ ∈ tokens := by
  obtain ⟨⟨token, position'⟩, htoken, hnode⟩ := List.mem_filterMap.mp h
  cases token with
  | leaf l => cases hnode; exact htoken
  | openTag tag => cases hnode; exact htoken
  | closeTag name => cases hnode

namespace Builder

/-- An open element stands where its start tag does. -/
theorem mem_nodes_of_opened {builder : Builder} {element : OpenElement}
    (h : element ∈ builder.opened) : (Node.element element.tag, element.position) ∈ builder.nodes := by
  obtain ⟨finished, opened⟩ := builder
  rw [nodes, List.mem_append]
  left
  induction opened with
  | nil => cases h
  | cons innermost outer ih =>
    rw [openedNodes, List.mem_append, List.mem_append]
    rcases List.mem_cons.mp h with rfl | h
    · simp
    · exact .inl (ih h)

theorem position_of_add_error {builder : Builder} {placed : Placed} {fault : Fault}
    (h : builder.add placed = .error fault) : fault.position = placed.position := by
  obtain ⟨token, position⟩ := placed
  cases token with
  | leaf l => cases h
  | openTag tag => cases h
  | closeTag name =>
    rw [add_closeTag] at h
    split at h
    · cases h
    · cases hclose : builder.closeElement name with
      | ok builder' =>
        rw [hclose] at h
        cases h
      | error cause =>
        rw [hclose] at h
        cases h
        rfl

end Builder

namespace Forest

/-- A page is refused at one of its tokens, or where these end too early. -/
theorem isIn_of_ofSource_error {source : Text} {fault : Fault} (h : ofSource source = .error fault) :
    fault.position.IsIn source := by
  obtain ⟨htokens, hended⟩ := isAt_of_ofSource source
  rcases Builder.ofTokens_eq_error h with hrun | ⟨builder, hrun, hfault | ⟨-, hfinish⟩⟩
  · obtain ⟨before, placed, after, builder, hsplit, -, hadd⟩ := Builder.exists_of_run_error hrun
    rw [Builder.position_of_add_error hadd]
    exact (htokens placed (by rw [hsplit]; simp)).isIn
  · exact hended fault hfault
  · have hholds := Builder.run_induction Builder.holds_empty Builder.holds_add hrun
    unfold Builder.finish at hfinish
    split at hfinish
    · rename_i element helement
      cases hfinish
      have hopened : element ∈ builder.opened := List.mem_of_find?_eq_some helement
      have hnode := Builder.mem_nodes_of_opened hopened
      rw [hholds.nodes] at hnode
      exact (htokens _ (mem_of_mem_nodes hnode)).isIn
    · cases hfinish

section

variable {source : Text} {forest : Forest} {position : Position}

/-- Every node of a page is read from its place. -/
theorem isAt_of_mem_placedNodes (h : ofSource source = .ok forest) {node : Node}
    (hnode : (node, position) ∈ forest.placedNodes) : Placed.IsAt source ⟨node.token, position⟩ := by
  obtain ⟨builder, hrun, -, hfinish⟩ := Builder.ofTokens_eq_ok_iff.mp h
  have hholds := Builder.run_induction Builder.holds_empty Builder.holds_add hrun
  rw [(Builder.nodes_of_finish hholds hfinish).1] at hnode
  exact (isAt_of_ofSource source).1 _ (mem_of_mem_nodes hnode)

theorem pointsAt_element (h : ofSource source = .ok forest) {tag : Tag}
    (hnode : (Node.element tag, position) ∈ forest.placedNodes) :
    ∃ inside behind, tag = .read inside ∧
      position.PointsAt source ("<" ++ inside ++ ">" ++ behind) := by
  obtain ⟨raw, text, behind, hspells, hpoints⟩ := isAt_of_mem_placedNodes h hnode
  cases hspells with
  | @openTag c inside letter ends => exact ⟨c :: inside, behind, rfl, hpoints⟩

theorem pointsAt_serverCode (h : ofSource source = .ok forest) {code : Text}
    (hnode : (Node.leaf (.serverCode code), position) ∈ forest.placedNodes) :
    ∃ behind, position.PointsAt source ("<?" ++ code ++ "?>" ++ behind) := by
  obtain ⟨raw, text, behind, hspells, hpoints⟩ := isAt_of_mem_placedNodes h hnode
  cases hspells with
  | serverCode xml ends => exact ⟨behind, hpoints⟩

end

end Forest

end Phrasebook.Markup
