import Phrasebook.Proofs.Markup.Acceptance
import Phrasebook.Proofs.Markup.Appended
import Phrasebook.Proofs.Moved

/-!
# Pages inside an element

Between the tags of an element that needs its end tag, a page is built as it is on its own. The tokens
between hang below the element instead of below nothing, at places that are moved, and the end tag
finishes what the page leaves open.
-/

namespace Phrasebook.Markup

open Text

/-! ## Other places -/

def Placed.relocate (f : Position → Position) (placed : Placed) : Placed :=
  ⟨placed.token, f placed.position⟩

def TokenStream.relocate (f : Position → Position) (stream : TokenStream) : TokenStream :=
  ⟨stream.tokens.map (Placed.relocate f),
    stream.fault.map fun fault => ⟨fault.cause, f fault.position⟩⟩

/-- A page that stands elsewhere has its tokens elsewhere. -/
theorem Reader.stream_moved (offset lines : Nat) (text : Text) (position : Position)
    (raw : Option Text) :
    stream ⟨text, position.moved offset lines, raw⟩ =
      (stream ⟨text, position, raw⟩).relocate (Position.moved offset lines) := by
  induction hn : text.length using Nat.strongRecOn generalizing text position raw with
  | ind n ih =>
    subst hn
    cases text with
    | nil =>
      rw [stream_nil, stream_nil]
      rfl
    | cons c rest =>
      have hsame : Reader.piece ⟨c :: rest, position.moved offset lines, raw⟩ c rest =
          Reader.piece ⟨c :: rest, position, raw⟩ c rest := rfl
      cases hpiece : Reader.piece ⟨c :: rest, position, raw⟩ c rest with
      | error cause =>
        rw [stream_cons, stream_cons, hsame, hpiece]
        rfl
      | ok piece =>
        have hlater := ih (rest.drop piece.width).length
          (by simp only [List.length_drop, List.length_cons]; omega) (rest.drop piece.width)
          (position.advance (c :: rest.take piece.width)) (rawTextAfter piece.token) rfl
        rw [stream_of_piece (hsame.trans hpiece), stream_of_piece hpiece]
        simp only [behind, Position.moved_advance, hlater]
        cases piece.token <;> rfl

namespace Forest

def relocate (f : Position → Position) : Forest → Forest
  | nil => nil
  | leaf l position siblings => leaf l (f position) (siblings.relocate f)
  | element tag position children siblings =>
    element tag (f position) (children.relocate f) (siblings.relocate f)

theorem relocate_reverseOnto (f : Position → Position) (behind forest : Forest) :
    (reverseOnto behind forest).relocate f = reverseOnto (behind.relocate f) (forest.relocate f) := by
  induction forest generalizing behind with
  | nil => rfl
  | leaf l position siblings ih => exact ih _
  | element tag position children siblings _ ih => exact ih _

theorem relocate_reverse (f : Position → Position) (forest : Forest) :
    forest.reverse.relocate f = (forest.relocate f).reverse :=
  relocate_reverseOnto f .nil forest

end Forest

def OpenElement.relocate (f : Position → Position) (element : OpenElement) : OpenElement :=
  ⟨element.tag, f element.position, element.before.relocate f⟩

/-! ## Building inside an element -/

namespace Builder

/-- The builder inside an open element, with its nodes at other places. -/
def inside (f : Position → Position) (outer : OpenElement) (builder : Builder) : Builder :=
  ⟨builder.finished.relocate f, builder.opened.map (OpenElement.relocate f) ++ [outer]⟩

section

variable {f : Position → Position} {outer : OpenElement} {builder builder' : Builder}

theorem close_inside (h : builder.opened ≠ []) :
    (builder.inside f outer).close = builder.close.inside f outer := by
  obtain ⟨finished, opened⟩ := builder
  cases opened with
  | nil => exact absurd rfl h
  | cons innermost others =>
    simp only [inside, close, List.map_cons, List.cons_append, Forest.relocate,
      Forest.relocate_reverse]
    rfl

theorem closeMany_inside {count : Nat} (h : count ≤ builder.opened.length) :
    (builder.inside f outer).closeMany count = (builder.closeMany count).inside f outer := by
  induction count generalizing builder with
  | zero => rfl
  | succ count ih =>
    have hopen : builder.opened ≠ [] := List.ne_nil_of_length_pos (by omega)
    have hleft : count ≤ builder.close.opened.length := by
      rw [opened_close, List.length_tail]
      omega
    rw [closeMany, close_inside hopen, ih hleft, closeMany]

theorem closeMany_succ (count : Nat) (builder : Builder) :
    builder.closeMany (count + 1) = (builder.closeMany count).close := by
  induction count generalizing builder with
  | zero => rfl
  | succ count ih => exact ih builder.close

theorem makeWayFor_inside (hterm : isSelfTerminating outer.tag.name = false) (name : Text) :
    (builder.inside f outer).makeWayFor name = (builder.makeWayFor name).inside f outer := by
  obtain ⟨finished, opened⟩ := builder
  cases opened with
  | nil =>
    -- The outer element is never ended by a start tag.
    have hname : ¬ (isSelfTerminating name = true ∧ outer.tag.name = name) := by
      rintro ⟨hname, rfl⟩
      rw [hterm] at hname
      cases hname
    simp [makeWayFor, inside, hname]
  | cons innermost others =>
    have hclose : (inside f outer ⟨finished, innermost :: others⟩).close =
        (close ⟨finished, innermost :: others⟩).inside f outer :=
      close_inside (List.cons_ne_nil _ _)
    have hhead : (inside f outer ⟨finished, innermost :: others⟩).opened.head?.any
        (fun element => element.tag.name = name) = decide (innermost.tag.name = name) := rfl
    unfold makeWayFor
    rw [hclose, hhead]
    simp only [List.head?_cons, Option.any_some]
    exact (apply_ite (inside f outer) _ _ _).symm

/-- An end tag is taken if all that is open inside its element needs none. -/
theorem closeElement_of_optional {name : Text} {inner others : List OpenElement}
    {matching : OpenElement} (hopened : builder.opened = inner ++ matching :: others)
    (hinner : ∀ element ∈ inner, element.tag.name ≠ name) (hname : matching.tag.name = name)
    (hoptional : ∀ element ∈ inner, isOptionalEnd element.tag.name = true) :
    builder.closeElement name = .ok (builder.closeMany (inner.length + 1)) := by
  have hnone : inner.findIdx? (fun element => decide (element.tag.name = name)) = none :=
    List.findIdx?_eq_none_iff.mpr fun element helement => decide_eq_false (hinner element helement)
  have hfind : builder.opened.findIdx? (fun element => decide (element.tag.name = name)) =
      some inner.length := by
    rw [hopened, List.findIdx?_append, hnone, List.findIdx?_cons]
    simp [hname]
  have hfree : innermostRequired? (builder.opened.take inner.length) = none := by
    rw [hopened, List.take_left]
    exact innermostRequired?_eq_none_iff.mpr hoptional
  unfold closeElement
  rw [hfind]
  simp only [hfree]

/-- What a token does to a page, it does to the page inside an element. -/
theorem add_inside (hterm : isSelfTerminating outer.tag.name = false) {placed : Placed}
    (h : builder.add placed = .ok builder') :
    (builder.inside f outer).add (placed.relocate f) = .ok (builder'.inside f outer) := by
  obtain ⟨token, position⟩ := placed
  cases token with
  | leaf l =>
    cases h
    rfl
  | openTag tag =>
    cases h
    change Except.ok (openElement (builder.inside f outer) tag (f position)) = _
    unfold openElement
    rw [makeWayFor_inside hterm]
    cases tag.isEmpty <;> rfl
  | closeTag name =>
    change (builder.inside f outer).add ⟨.closeTag name, f position⟩ = _
    rw [add_closeTag] at h ⊢
    split at h
    · rename_i hvoid
      cases h
      rw [if_pos hvoid]
    · rename_i hvoid
      obtain ⟨inner, matching, others, hopened, hinner, hname, hoptional, rfl⟩ :=
        closeElement_eq_ok (mapError_eq_ok h)
      have hroom : inner.length + 1 ≤ builder.opened.length := by
        rw [hopened]
        simp
      have hinside : (builder.inside f outer).opened = inner.map (OpenElement.relocate f) ++
          matching.relocate f :: (others.map (OpenElement.relocate f) ++ [outer]) := by
        simp [inside, hopened]
      rw [if_neg hvoid, closeElement_of_optional hinside (List.forall_mem_map.mpr hinner) hname
        (List.forall_mem_map.mpr hoptional), List.length_map, closeMany_inside hroom]
      rfl

theorem foldlM_add_inside (hterm : isSelfTerminating outer.tag.name = false) {tokens : List Placed}
    (h : tokens.foldlM add builder = .ok builder') :
    (tokens.map (Placed.relocate f)).foldlM add (builder.inside f outer) =
      .ok (builder'.inside f outer) := by
  induction tokens generalizing builder with
  | nil =>
    cases h
    rfl
  | cons placed later ih =>
    obtain ⟨between, hadd, hlater⟩ := exists_of_cons h
    rw [List.map_cons, foldlM_add_cons (add_inside hterm hadd), ih hlater]

/-- The end tag of the element around a page finishes the page. -/
theorem closeElement_inside (hrequired : isRequired outer.tag.name = true) {forest : Forest}
    (h : builder.finish = .ok forest) :
    (builder.inside f outer).closeElement outer.tag.name =
      .ok ⟨.element outer.tag outer.position (forest.relocate f) outer.before, []⟩ := by
  unfold finish at h
  split at h
  · cases h
  · rename_i hnone
    cases h
    have hoptional := innermostRequired?_eq_none_iff.mp hnone
    have hother : ∀ element ∈ builder.opened, element.tag.name ≠ outer.tag.name := by
      intro element helement hname
      have := hoptional element helement
      rw [hname, (isRequired_iff.mp hrequired).2] at this
      cases this
    have hinside : (builder.inside f outer).opened =
        builder.opened.map (OpenElement.relocate f) ++ outer :: [] := rfl
    have hclosed : builder.closeMany builder.opened.length =
        ⟨(builder.closeMany builder.opened.length).finished, []⟩ := by
      rw [← closeMany_opened builder]
    rw [closeElement_of_optional hinside (List.forall_mem_map.mpr hother) rfl
      (List.forall_mem_map.mpr hoptional), List.length_map, closeMany_succ, closeMany_inside le_rfl,
      hclosed, Forest.relocate_reverse]
    rfl

/-! ## Raw text at the end -/

/-- Where raw text begins, its element is open. -/
theorem rawName_of_add {placed : Placed} {name : Text} (h : builder.add placed = .ok builder')
    (hraw : Reader.rawTextAfter (some placed.token) = some name) :
    rawName (innermostName builder'.opened) = some name := by
  obtain ⟨token, position⟩ := placed
  obtain ⟨tag, htoken, -⟩ := isRawText_of_rawTextAfter hraw
  cases htoken
  cases h
  have hempty : tag.isEmpty = false := by
    rw [Bool.eq_false_iff]
    intro hempty
    rw [rawTextAfter_of_isEmpty hempty] at hraw
    cases hraw
  rw [rawTextAfter_of_not_isEmpty hempty] at hraw
  simpa [openElement, hempty, innermostName] using hraw

/-- While raw text goes on, its element is open. -/
theorem rawName_of_endsRaw {raw : Option Text} {tokens : List Placed}
    (open_ : ∀ name, raw = some name → rawName (innermostName builder.opened) = some name)
    (hrun : tokens.foldlM add builder = .ok builder') (h : endsRaw raw tokens = true) :
    ∃ name, rawName (innermostName builder'.opened) = some name := by
  induction tokens generalizing raw builder with
  | nil =>
    cases hrun
    obtain ⟨name, hname⟩ := Option.isSome_iff_exists.mp h
    exact ⟨name, open_ name hname⟩
  | cons placed later ih =>
    obtain ⟨between, hadd, hlater⟩ := exists_of_cons hrun
    unfold endsRaw at h
    split at h
    · rename_i heq
      cases heq
    · -- The raw text itself is the last token.
      rename_i name l position heq
      cases heq
      cases hadd
      cases hlater
      exact ⟨name, open_ name rfl⟩
    · rename_i heq
      cases heq
      exact ih (fun name => rawName_of_add hadd) hlater h

end

end Builder

/-- A page that can be read does not end in raw text. -/
theorem not_endsRaw_of_ofTokens {stream : TokenStream} {forest : Forest}
    (h : Forest.ofTokens stream = .ok forest) : endsRaw none stream.tokens = false := by
  obtain ⟨builder, hrun, -, hfinish⟩ := Builder.ofTokens_eq_ok_iff.mp h
  rw [Bool.eq_false_iff]
  intro hraw
  have hstart : ∀ name, (none : Option Text) = some name →
      rawName (innermostName Builder.empty.opened) = some name := by simp
  obtain ⟨name, hname⟩ := Builder.rawName_of_endsRaw hstart hrun hraw
  obtain ⟨fault, hfault⟩ := Builder.finish_of_raw hname
  rw [hfault] at hfinish
  cases hfinish

/-! ## Whole pages -/

section

variable {tag : Tag}

theorem Tag.Legal.without_nil (h : tag.Legal) : tag.without [] = tag := by
  have hkept : tag.attributes.filter (fun attr => decide (attr.name ≠ [])) = tag.attributes :=
    List.filter_eq_self.mpr fun attr hattr => decide_eq_true (h.attributes attr hattr).nonempty
  rw [Tag.without, hkept]

/-- A place of a page with the start tag written before the page. -/
def Tag.moved (tag : Tag) : Position → Position :=
  Position.moved (byteLength (tag.write [])) (newlines (tag.write []))

/-- The tokens of a page inside an element are its tags, and between them those of the page. -/
theorem stream_wrapped (legal : tag.Legal) (hraw : tag.startsRawText = false)
    {source : Text} {forest : Forest} (h : Forest.ofSource source = .ok forest) :
    TokenStream.ofSource (tag.write [] ++ source ++ endTag tag.name) =
      ⟨⟨.openTag tag, .start⟩ :: ((TokenStream.ofSource source).relocate tag.moved).tokens ++
        [⟨.closeTag tag.name, tag.moved (Position.start.advance source)⟩], none⟩ := by
  obtain ⟨builder, hrun, hfault, -⟩ := Builder.ofTokens_eq_ok_iff.mp h
  have hopen : tag.write [] = '<' :: (tag.inside ++ ['>']) := by
    rw [Tag.write_eq_inside, legal.without_nil]
  have hplace : Position.start.advance (tag.write []) = tag.moved .start := rfl
  have ends : Piece.startsMarkup (endTag tag.name) = true := rfl
  have hpage := Reader.stream_append ends source .start none hfault (not_endsRaw_of_ofTokens h)
  have hmoved : Reader.stream ⟨source ++ endTag tag.name, tag.moved .start, none⟩ =
      ⟨((TokenStream.ofSource source).relocate tag.moved).tokens ++
        [⟨.closeTag tag.name, tag.moved (Position.start.advance source)⟩], none⟩ := by
    refine (Reader.stream_moved _ _ _ .start none).trans ?_
    rw [hpage, stream_endTag legal.part, legal.lowered]
    simp only [TokenStream.relocate, List.map_append]
    rfl
  have hnone : Reader.rawTextAfter (some (.openTag tag)) = none := if_neg (by simp [hraw])
  rw [TokenStream.ofSource, Reader.ofSource, List.append_assoc, hopen, List.cons_append,
    stream_of_first (first_openTag legal _), ← hopen, hnone, hplace, hmoved]
  rfl

/-- A page inside an element that needs its end tag is all that the element holds. -/
theorem Forest.ofSource_wrapped (legal : tag.Legal) (hempty : tag.isEmpty = false)
    (hrequired : isRequired tag.name = true) (hraw : tag.startsRawText = false) {source : Text}
    {forest : Forest} (h : ofSource source = .ok forest) :
    ofSource (tag.write [] ++ source ++ endTag tag.name) =
      .ok (.element tag .start (forest.relocate tag.moved) .nil) := by
  obtain ⟨builder, hrun, -, hfinish⟩ := Builder.ofTokens_eq_ok_iff.mp h
  have hterm : isSelfTerminating tag.name = false := by
    rw [Bool.eq_false_iff]
    intro hterm
    have := (isRequired_iff.mp hrequired).2
    rw [isOptionalEnd_of_isSelfTerminating hterm] at this
    cases this
  let outer : OpenElement := ⟨tag, .start, .nil⟩
  have hopen : Builder.empty.add ⟨.openTag tag, .start⟩ =
      .ok (Builder.empty.inside tag.moved outer) := by
    rw [Builder.add_openTag_first, hempty]
    rfl
  have hpage : ((TokenStream.ofSource source).relocate tag.moved).tokens.foldlM Builder.add
      (Builder.empty.inside tag.moved outer) = .ok (builder.inside tag.moved outer) :=
    Builder.foldlM_add_inside hterm hrun
  have hclose (position : Position) :
      (builder.inside tag.moved outer).add ⟨.closeTag tag.name, position⟩ =
        .ok ⟨.element tag .start (forest.relocate tag.moved) .nil, []⟩ := by
    have houter : isRequired outer.tag.name = true := hrequired
    rw [Builder.add_closeTag, if_neg (by simp [(isRequired_iff.mp hrequired).1]),
      Builder.closeElement_inside houter hfinish]
    rfl
  rw [ofSource, stream_wrapped legal hraw h]
  refine Builder.ofTokens_eq_ok_iff.mpr
    ⟨⟨.element tag .start (forest.relocate tag.moved) .nil, []⟩, ?_, rfl, rfl⟩
  rw [List.cons_append, Builder.foldlM_add_cons hopen, Builder.foldlM_add_append hpage,
    Builder.foldlM_add_cons (hclose _)]
  rfl

end

end Phrasebook.Markup
