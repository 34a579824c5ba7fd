import Phrasebook.Proofs.Guarded.Token
import Phrasebook.Proofs.Markup.Numbering

/-!
# Documents by numbers

Here a page is a list of nodes that know the numbers of their parents and children, and a builder keeps
the numbers of the open elements. A node is pushed as soon as its token is read, so that closing elements
leaves the document as it is.
-/

namespace Phrasebook

open Text

namespace Guarded

open Markup

/-- A node, its place, and the numbers of its parent and its children. -/
structure Item where
  node : Node
  position : Position
  parent : Option Nat
  children : List Nat
  deriving DecidableEq, Repr

/-- The nodes of a page by number. -/
structure Document where
  items : List Item
  roots : List Nat
  deriving DecidableEq, Repr

def Item.tag? (item : Item) : Option Tag :=
  match item.node with
  | .element tag => some tag
  | .leaf _ => none

def tagOf (document : Document) (number : Nat) : Guarded (Option Tag) := do
  let found ← item document.items number
  return found.tag?

/-! ## Building -/

/-- The document with another node, and its number. -/
def push (document : Document) (node : Node) (position : Position) (parent : Option Nat) :
    Guarded (Document × Nat) :=
  let number := document.items.length
  let items := document.items ++ [⟨node, position, parent, []⟩]
  match parent with
  | none => return (⟨items, document.roots ++ [number]⟩, number)
  | some above => do
    let outer ← item items above
    return (⟨items.set above { outer with children := outer.children ++ [number] }, document.roots⟩,
      number)

/-- The place of the last number that has the property. -/
def lastWhere? (holds : Nat → Guarded Bool) : List Nat → Guarded (Option Nat)
  | [] => return none
  | number :: later => do
    match ← lastWhere? holds later with
    | some place => return some (place + 1)
    | none =>
      let here ← holds number
      return if here then some 0 else none

def isNamed (document : Document) (name : Text) (number : Nat) : Guarded Bool := do
  let tag ← tagOf document number
  return tag.any fun tag => tag.name = name

def requiresEnd (document : Document) (number : Nat) : Guarded Bool := do
  let tag ← tagOf document number
  return !tag.any fun tag => isOptionalEnd tag.name

/-- The last of the numbers whose element needs an end tag. -/
def lastRequired? (document : Document) (opened : List Nat) : Guarded (Option Nat) := do
  match ← lastWhere? (requiresEnd document) opened with
  | none => return none
  | some place =>
    let number ← item opened place
    return some number

def makeWayFor (document : Document) (opened : List Nat) (name : Text) : Guarded (List Nat) :=
  if isSelfTerminating name then
    match opened.getLast? with
    | none => return opened
    | some top => do
      let same ← isNamed document name top
      return if same then opened.dropLast else opened
  else return opened

def closeElement (document : Document) (opened : List Nat) (name : Text) :
    Guarded (Except Fault.Cause (List Nat)) := do
  match ← lastWhere? (isNamed document name) opened with
  | none => return .error (.unexpectedClose (endTag name))
  | some depth =>
    let inner ← itemsFrom opened (depth + 1)
    match ← lastRequired? document inner with
    | some blocking =>
      let tag ← tagOf document blocking
      return .error (.mismatchedClose ((tag.map fun tag => endTag tag.name).getD []) (endTag name))
    | none => return .ok (opened.take depth)

/-- The document and the open elements behind one token. -/
def addToken (document : Document) (opened : List Nat) (placed : Placed) :
    Guarded (Except Fault (Document × List Nat)) :=
  match placed.token with
  | .openTag tag => do
    let opened ← makeWayFor document opened tag.name
    let (document, number) ← push document (.element tag) placed.position opened.getLast?
    return .ok (document, if tag.isEmpty then opened else opened ++ [number])
  | .closeTag name =>
    if isVoid name then return .ok (document, opened)
    else do
      let outcome ← closeElement document opened name
      return (outcome.mapError fun cause => ⟨cause, placed.position⟩).map fun opened =>
        (document, opened)
  | .leaf l => do
    let (document, _) ← push document (.leaf l) placed.position opened.getLast?
    return .ok (document, opened)

def finish (document : Document) (opened : List Nat) : Guarded (Except Fault Document) := do
  match ← lastRequired? document opened with
  | none => return .ok document
  | some number =>
    let unclosed ← item document.items number
    return .error ⟨.unclosed ((unclosed.tag?.map Tag.name).getD []), unclosed.position⟩

/-- The document of a page from here on, in at most so many rounds. -/
def buildFrom (source : Text) : Nat → Cursor → Document → List Nat → Guarded (Except Fault Document)
  | 0, _, _, _ => .error .endless
  | rounds + 1, cursor, document, opened => do
    unlessFault (← next source cursor) fun (found, cursor) =>
      match found with
      | none => finish document opened
      | some placed => do
        unlessFault (← addToken document opened placed) fun (document, opened) =>
          buildFrom source rounds cursor document opened

def document (source : Text) : Guarded (Except Fault Document) :=
  buildFrom source (byteLength source + 1) ⟨0, none⟩ ⟨[], []⟩ []

/-- The document behind these tokens; what ends their stream counts once all of them are in. -/
def addTokens (fault : Option Fault) :
    List Placed → Document → List Nat → Guarded (Except Fault Document)
  | [], document, opened =>
    match fault with
    | some fault => return .error fault
    | none => finish document opened
  | placed :: later, document, opened => do
    unlessFault (← addToken document opened placed) fun (document, opened) =>
      addTokens fault later document opened

/-- The document of any stream of tokens, whoever has read them. -/
def documentOfTokens (stream : TokenStream) : Guarded (Except Fault Document) :=
  addTokens stream.fault stream.tokens ⟨[], []⟩ []

end Guarded

/-! ## The items of a forest -/

namespace Markup.Forest

open Guarded (Item Document)

/-- The items of a forest below `parent` whose first node has the number `first`. -/
def items (parent : Option Nat) (first : Nat) : Forest → List Item
  | nil => []
  | leaf l position siblings => ⟨.leaf l, position, parent, []⟩ :: siblings.items parent (first + 1)
  | element tag position children siblings =>
    ⟨.element tag, position, parent, children.numbers (first + 1)⟩ ::
      (children.items (some first) (first + 1) ++ siblings.items parent (first + 1 + children.size))

def document (forest : Forest) : Document := ⟨forest.items none 0, forest.numbers 0⟩

theorem length_items (parent : Option Nat) (first : Nat) (forest : Forest) :
    (forest.items parent first).length = forest.size := by
  induction forest generalizing parent first with
  | nil => rfl
  | leaf l position siblings ih => rw [items, List.length_cons, ih, size, Nat.add_comm]
  | element tag position children siblings ihc ihs =>
    rw [items, List.length_cons, List.length_append, ihc, ihs, size]
    omega

theorem size_reverseOnto (behind forest : Forest) :
    (reverseOnto behind forest).size = forest.size + behind.size := by
  induction forest generalizing behind with
  | nil => rw [reverseOnto, size, Nat.zero_add]
  | leaf l position siblings ih =>
    rw [reverseOnto, ih, size, size]
    omega
  | element tag position children siblings _ ih =>
    rw [reverseOnto, ih, size, size]
    omega

theorem size_reverse (forest : Forest) : forest.reverse.size = forest.size := size_reverseOnto nil forest

theorem items_reverseOnto (parent : Option Nat) (first : Nat) (behind forest : Forest) :
    (reverseOnto behind forest).items parent first =
      forest.reverse.items parent first ++ behind.items parent (first + forest.size) := by
  induction forest generalizing behind with
  | nil => rfl
  | leaf l position siblings ih =>
    have hstop : first + (1 + siblings.size) = first + siblings.size + 1 := by omega
    rw [reverseOnto, reverse, reverseOnto, ih, ih (leaf l position nil), items, items, items, size, hstop]
    simp
  | element tag position children siblings _ ih =>
    have hstop : first + (1 + children.size + siblings.size) =
        first + siblings.size + 1 + children.size := by omega
    rw [reverseOnto, reverse, reverseOnto, ih, ih (element tag position children nil), items, items,
      items, size, hstop]
    simp

theorem numbers_reverseOnto (first : Nat) (behind forest : Forest) :
    (reverseOnto behind forest).numbers first =
      forest.reverse.numbers first ++ behind.numbers (first + forest.size) := by
  induction forest generalizing behind with
  | nil => rfl
  | leaf l position siblings ih =>
    have hstop : first + (1 + siblings.size) = first + siblings.size + 1 := by omega
    rw [reverseOnto, reverse, reverseOnto, ih, ih (leaf l position nil), numbers, numbers, numbers, size, hstop]
    simp
  | element tag position children siblings _ ih =>
    have hstop : first + (1 + children.size + siblings.size) =
        first + siblings.size + 1 + children.size := by omega
    rw [reverseOnto, reverse, reverseOnto, ih, ih (element tag position children nil), numbers, numbers,
      numbers, size, hstop]
    simp

/-- A node without children before others. -/
def consNode (node : Node) (position : Position) (behind : Forest) : Forest :=
  match node with
  | .leaf l => leaf l position behind
  | .element tag => element tag position nil behind

theorem items_reverse_consNode (parent : Option Nat) (first : Nat) (node : Node) (position : Position)
    (forest : Forest) : (consNode node position forest).reverse.items parent first =
      forest.reverse.items parent first ++ [⟨node, position, parent, []⟩] := by
  cases node <;> exact items_reverseOnto parent first _ forest

theorem numbers_reverse_consNode (first : Nat) (node : Node) (position : Position) (forest : Forest) :
    (consNode node position forest).reverse.numbers first =
      forest.reverse.numbers first ++ [first + forest.size] := by
  cases node <;> exact numbers_reverseOnto first _ forest

end Markup.Forest

/-! ## The document of a builder -/

namespace Markup

open Guarded (Item Document)

/-- The forest of the open elements, the outermost first, and of the finished nodes in the innermost. -/
def spine (finished : Forest) : List OpenElement → Forest
  | [] => finished.reverse
  | outermost :: inner =>
    .reverseOnto (.element outermost.tag outermost.position (spine finished inner) .nil) outermost.before

/-- The numbers of open elements, the outermost first. -/
def openNumbers (first : Nat) : List OpenElement → List Nat
  | [] => []
  | outermost :: inner =>
    (first + outermost.before.size) :: openNumbers (first + outermost.before.size + 1) inner

theorem size_spine_cons (finished : Forest) (outermost : OpenElement) (inner : List OpenElement) :
    (spine finished (outermost :: inner)).size =
      outermost.before.size + 1 + (spine finished inner).size := by
  rw [spine, Forest.size_reverseOnto, Forest.size, Forest.size]
  omega

theorem spine_concat (finished : Forest) (outer : List OpenElement) (innermost : OpenElement) :
    spine finished (outer ++ [innermost]) =
      spine (.element innermost.tag innermost.position finished.reverse innermost.before) outer := by
  induction outer with
  | nil => rfl
  | cons outermost outer ih => rw [List.cons_append, spine, ih, spine]

theorem openNumbers_concat (finished : Forest) (first : Nat) (outer : List OpenElement) (tag : Tag)
    (position : Position) : openNumbers first (outer ++ [⟨tag, position, finished⟩]) =
      openNumbers first outer ++ [first + (spine finished outer).size] := by
  induction outer generalizing first with
  | nil => rw [spine, Forest.size_reverse]; rfl
  | cons outermost outer ih =>
    rw [List.cons_append, openNumbers, ih, size_spine_cons, openNumbers, List.cons_append]
    congr 3
    omega

theorem length_openNumbers (first : Nat) (opened : List OpenElement) :
    (openNumbers first opened).length = opened.length := by
  induction opened generalizing first with
  | nil => rfl
  | cons outermost inner ih => rw [openNumbers, List.length_cons, ih, List.length_cons]

theorem items_spine_cons (finished : Forest) (outermost : OpenElement) (inner : List OpenElement)
    (parent : Option Nat) (first : Nat) : (spine finished (outermost :: inner)).items parent first =
      outermost.before.reverse.items parent first ++
        ⟨.element outermost.tag, outermost.position, parent,
          (spine finished inner).numbers (first + outermost.before.size + 1)⟩ ::
        (spine finished inner).items (some (first + outermost.before.size))
          (first + outermost.before.size + 1) := by
  rw [spine, Forest.items_reverseOnto, Forest.items, Forest.items, List.append_nil]

theorem numbers_spine_cons (finished : Forest) (outermost : OpenElement) (inner : List OpenElement)
    (first : Nat) : (spine finished (outermost :: inner)).numbers first =
      outermost.before.reverse.numbers first ++ [first + outermost.before.size] := by
  rw [spine, Forest.numbers_reverseOnto]
  rfl

theorem take_openNumbers (first : Nat) (outer inner : List OpenElement) :
    (openNumbers first (outer ++ inner)).take outer.length = openNumbers first outer := by
  induction outer generalizing first with
  | nil => rfl
  | cons outermost outer ih =>
    rw [List.cons_append, openNumbers, List.length_cons, List.take_succ_cons, ih, openNumbers]

/-- Another node in the innermost element is the last item, and one more child of that element. -/
theorem items_spine_consNode (finished : Forest) (node : Node) (position : Position)
    (outermost : OpenElement) (inner : List OpenElement) (parent : Option Nat) (first : Nat) :
    ∃ ahead outer behind,
      (spine finished (outermost :: inner)).items parent first = ahead ++ outer :: behind ∧
      (openNumbers first (outermost :: inner)).getLast? = some (first + ahead.length) ∧
      (spine (.consNode node position finished) (outermost :: inner)).items parent first =
        ahead ++ { outer with
            children := outer.children ++ [first + (spine finished (outermost :: inner)).size] } ::
          (behind ++ [⟨node, position, some (first + ahead.length), []⟩]) ∧
      (spine (.consNode node position finished) (outermost :: inner)).numbers first =
        (spine finished (outermost :: inner)).numbers first := by
  have hbefore : ∀ (element : OpenElement) (parent : Option Nat) (first : Nat),
      (element.before.reverse.items parent first).length = element.before.size := by
    intro element parent first
    rw [Forest.length_items, Forest.size_reverse]
  induction inner generalizing outermost parent first with
  | nil =>
    refine ⟨outermost.before.reverse.items parent first, _, _, items_spine_cons .., ?_, ?_, ?_⟩
    · rw [hbefore]
      rfl
    · rw [items_spine_cons, spine, Forest.items_reverse_consNode, Forest.numbers_reverse_consNode, hbefore,
        size_spine_cons, spine, Forest.size_reverse]
      simp only [Nat.add_assoc]
    · rw [numbers_spine_cons, numbers_spine_cons]
  | cons next inner ih =>
    obtain ⟨ahead, outer, behind, hitems, hlast, hpushed, hsame⟩ := ih next
      (some (first + outermost.before.size)) (first + outermost.before.size + 1)
    have hlength : first + (outermost.before.reverse.items parent first ++
        ⟨.element outermost.tag, outermost.position, parent,
          (spine finished (next :: inner)).numbers (first + outermost.before.size + 1)⟩ :: ahead).length =
        first + outermost.before.size + 1 + ahead.length := by
      rw [List.length_append, List.length_cons, hbefore]
      omega
    have hsize : first + (spine finished (outermost :: next :: inner)).size =
        first + outermost.before.size + 1 + (spine finished (next :: inner)).size := by
      rw [size_spine_cons]
      omega
    refine ⟨outermost.before.reverse.items parent first ++
      ⟨.element outermost.tag, outermost.position, parent,
        (spine finished (next :: inner)).numbers (first + outermost.before.size + 1)⟩ :: ahead, outer, behind,
      ?_, ?_, ?_, ?_⟩
    · rw [items_spine_cons, hitems, List.append_assoc, List.cons_append]
    · rw [hlength, ← hlast]
      rfl
    · rw [items_spine_cons, hpushed, hlength, hsize, hsame, List.append_assoc, List.cons_append]
    · rw [numbers_spine_cons, numbers_spine_cons]

end Markup

namespace Guarded

open Markup

def documentOf (builder : Builder) : Document :=
  (spine builder.finished builder.opened.reverse).document

def openedOf (builder : Builder) : List Nat := openNumbers 0 builder.opened.reverse

theorem documentOf_close (builder : Builder) : documentOf builder.close = documentOf builder := by
  obtain ⟨finished, opened⟩ := builder
  cases opened with
  | nil => rfl
  | cons innermost outer =>
    rw [documentOf, documentOf, List.reverse_cons, spine_concat]
    rfl

theorem openedOf_close (builder : Builder) : openedOf builder.close = (openedOf builder).dropLast := by
  obtain ⟨finished, opened⟩ := builder
  cases opened with
  | nil => rfl
  | cons innermost outer =>
    obtain ⟨tag, position, before⟩ := innermost
    rw [openedOf, openedOf, List.reverse_cons, openNumbers_concat before, List.dropLast_concat]
    rfl

theorem push_spec (builder : Builder) (node : Node) (position : Position) :
    push (documentOf builder) node position (openedOf builder).getLast? =
      .ok (documentOf ⟨.consNode node position builder.finished, builder.opened⟩,
        (documentOf builder).items.length) := by
  obtain ⟨finished, opened⟩ := builder
  rw [documentOf, documentOf, openedOf]
  have hlength : (spine finished opened.reverse).document.items.length =
      (spine finished opened.reverse).size := Forest.length_items ..
  cases hopened : opened.reverse with
  | nil =>
    rw [hopened] at hlength
    rw [openNumbers, List.getLast?_nil, push, hlength, spine, spine, Forest.document, Forest.document,
      Forest.items_reverse_consNode, Forest.numbers_reverse_consNode, Nat.zero_add, Forest.size_reverse]
    rfl
  | cons outermost inner =>
    rw [hopened] at hlength
    obtain ⟨ahead, outer, behind, hitems, hlast, hpushed, hnumbers⟩ :=
      items_spine_consNode finished node position outermost inner none 0
    rw [Nat.zero_add] at hlast hpushed
    have houter : item ((ahead ++ outer :: behind) ++ [⟨node, position, some ahead.length, []⟩]) ahead.length =
        .ok outer := item_eq (by simp)
    rw [hlast, push, hlength, Forest.document, Forest.document, hitems, hpushed, hnumbers]
    simp only [houter, ok_bind]
    simp

/-- The number of an open element is that of an item with its tag and place. -/
def Numbers (document : Document) (number : Nat) (element : OpenElement) : Prop :=
  ∃ found, item document.items number = .ok found ∧ found.tag? = some element.tag ∧
    found.position = element.position

theorem numbers_openedOf (builder : Builder) :
    List.Forall₂ (Numbers (documentOf builder)) (openedOf builder) builder.opened.reverse := by
  have hall : ∀ (opened : List OpenElement) (ahead : List Item) (parent : Option Nat) (roots : List Nat),
      List.Forall₂
        (Numbers ⟨ahead ++ (spine builder.finished opened).items parent ahead.length, roots⟩)
        (openNumbers ahead.length opened) opened := by
    intro opened
    induction opened with
    | nil => exact fun _ _ _ => .nil
    | cons outermost inner ih =>
      intro ahead parent roots
      have hbefore : (ahead ++ outermost.before.reverse.items parent ahead.length).length =
          ahead.length + outermost.before.size := by
        rw [List.length_append, Forest.length_items, Forest.size_reverse]
      rw [items_spine_cons, openNumbers, ← hbefore, ← List.append_assoc]
      generalize ahead ++ outermost.before.reverse.items parent ahead.length = ahead
      refine .cons ⟨⟨.element outermost.tag, outermost.position, parent,
        (spine builder.finished inner).numbers (ahead.length + 1)⟩, item_eq ?_, rfl, rfl⟩ ?_
      · rw [List.getElem?_append_right (Nat.le_refl _), Nat.sub_self, List.getElem?_cons_zero]
      · have hinner := ih (ahead ++ [⟨.element outermost.tag, outermost.position, parent,
          (spine builder.finished inner).numbers (ahead.length + 1)⟩]) (some ahead.length) roots
        rwa [List.length_append, List.length_singleton, List.append_assoc, List.singleton_append] at hinner
  exact hall builder.opened.reverse [] none _

/-! ## Open elements -/

theorem lastWhere?_spec {holds : Nat → Guarded Bool} {property : OpenElement → Bool}
    {numbers : List Nat} {opened : List OpenElement}
    (h : List.Forall₂ (fun number element => holds number = .ok (property element)) numbers opened) :
    (∀ element ∈ opened, property element = false) ∧ lastWhere? holds numbers = .ok none ∨
      ∃ outer found inner, opened = outer ++ found :: inner ∧ property found = true ∧
        (∀ element ∈ inner, property element = false) ∧
        lastWhere? holds numbers = .ok (some outer.length) := by
  induction h with
  | nil => exact .inl ⟨by simp, rfl⟩
  | @cons number element numbers opened hhere _ ih =>
    rcases ih with ⟨hnone, hlast⟩ | ⟨outer, found, inner, rfl, hfound, hinner, hlast⟩
    · rw [lastWhere?, hlast, ok_bind, hhere, ok_bind]
      cases hproperty : property element with
      | true => exact .inr ⟨[], element, opened, rfl, hproperty, hnone, rfl⟩
      | false => exact .inl ⟨List.forall_mem_cons.mpr ⟨hproperty, hnone⟩, rfl⟩
    · refine .inr ⟨element :: outer, found, inner, rfl, hfound, hinner, ?_⟩
      rw [lastWhere?, hlast]
      rfl

section

variable {document : Document} {number : Nat} {element : OpenElement} (h : Numbers document number element)

include h

theorem tagOf_spec : tagOf document number = .ok (some element.tag) := by
  obtain ⟨found, hitem, htag, -⟩ := h
  rw [tagOf, hitem, ok_bind, htag]
  rfl

theorem isNamed_spec (name : Text) :
    isNamed document name number = .ok (decide (element.tag.name = name)) := by
  rw [isNamed, tagOf_spec h]
  rfl

theorem requiresEnd_spec :
    requiresEnd document number = .ok (!isOptionalEnd element.tag.name) := by
  rw [requiresEnd, tagOf_spec h]
  rfl

end

/-- The innermost element that needs an end tag, the innermost element being the last here. -/
theorem lastRequired?_spec {document : Document} {numbers : List Nat} {opened : List OpenElement}
    (h : List.Forall₂ (Numbers document) numbers opened) :
    Builder.innermostRequired? opened.reverse = none ∧ lastRequired? document numbers = .ok none ∨
      ∃ element number, Builder.innermostRequired? opened.reverse = some element ∧
        Numbers document number element ∧ lastRequired? document numbers = .ok (some number) := by
  rcases lastWhere?_spec (h.imp fun _ _ hnumbers => requiresEnd_spec hnumbers) with
    ⟨hnone, hlast⟩ | ⟨outer, found, inner, rfl, hfound, hinner, hlast⟩
  · refine .inl ⟨?_, by rw [lastRequired?, hlast]; rfl⟩
    rw [Builder.innermostRequired?_eq_none_iff]
    intro element hmem
    simpa using hnone element (List.mem_reverse.mp hmem)
  · obtain ⟨number, later, hnumber, -, hdrop⟩ :=
      List.forall₂_cons_right_iff.mp (List.forall₂_drop_append _ _ _ h)
    have hitem : item numbers outer.length = .ok number := by
      apply item_eq
      rw [← Nat.add_zero outer.length, ← List.getElem?_drop, hdrop, List.getElem?_cons_zero]
    refine .inr ⟨found, number, ?_, hnumber, ?_⟩
    · rw [Builder.innermostRequired?, List.reverse_append, List.reverse_cons, List.append_assoc,
        List.find?_append, List.find?_eq_none.mpr (by simpa using hinner)]
      simp [hfound]
    · rw [lastRequired?, hlast]
      simp only [ok_bind, hitem, pure_eq_ok]

theorem makeWayFor_spec (builder : Builder) (name : Text) :
    makeWayFor (documentOf builder) (openedOf builder) name =
        .ok (openedOf (builder.makeWayFor name)) ∧
      documentOf (builder.makeWayFor name) = documentOf builder := by
  have hnumbers := List.forall₂_reverse_iff.mpr (numbers_openedOf builder)
  rw [List.reverse_reverse] at hnumbers
  unfold makeWayFor Builder.makeWayFor
  by_cases hself : isSelfTerminating name
  · rw [if_pos hself, ← List.head?_reverse]
    cases hopened : builder.opened with
    | nil =>
      rw [hopened, List.forall₂_nil_right_iff] at hnumbers
      simp [hnumbers]
    | cons innermost outer =>
      rw [hopened] at hnumbers
      obtain ⟨number, later, hnumber, -, hreverse⟩ := List.forall₂_cons_right_iff.mp hnumbers
      simp only [hreverse, List.head?_cons, isNamed_spec hnumber, ok_bind, hself, true_and,
        Option.any_some]
      split
      · exact ⟨congrArg Except.ok (openedOf_close builder).symm, documentOf_close builder⟩
      · exact ⟨rfl, rfl⟩
  · simp [hself]

theorem documentOf_closeMany (builder : Builder) (count : Nat) :
    documentOf (Builder.closeMany count builder) = documentOf builder :=
  Builder.closeMany_induction (P := fun later => documentOf later = documentOf builder)
    (fun h => (documentOf_close _).trans h) rfl count

theorem closeElement_spec (builder : Builder) (name : Text) :
    closeElement (documentOf builder) (openedOf builder) name =
      .ok ((builder.closeElement name).map openedOf) ∧
      ∀ builder', builder.closeElement name = .ok builder' → documentOf builder' = documentOf builder := by
  have hnumbers := numbers_openedOf builder
  rw [closeElement, Builder.closeElement]
  rcases lastWhere?_spec (hnumbers.imp fun _ _ hnumber => isNamed_spec hnumber name) with
    ⟨hnone, hlast⟩ | ⟨outer, found, inner, hopened, hname, hinner, hlast⟩
  · have hfind : builder.opened.findIdx? (fun element => decide (element.tag.name = name)) = none := by
      rw [List.findIdx?_eq_none_iff]
      exact fun element hmem => hnone element (List.mem_reverse.mpr hmem)
    rw [hlast, hfind]
    exact ⟨rfl, by simp⟩
  · have hshape : builder.opened = inner.reverse ++ found :: outer.reverse := by
      rw [← List.reverse_reverse builder.opened, hopened]
      simp
    have hfind : builder.opened.findIdx? (fun element => decide (element.tag.name = name)) =
        some inner.reverse.length := by
      rw [hshape, List.findIdx?_append, List.findIdx?_eq_none_iff.mpr (by simpa using hinner),
        List.findIdx?_cons, hname]
      simp
    have hlength : outer.length + 1 ≤ (openedOf builder).length := by
      rw [openedOf, length_openNumbers, hopened, List.length_append, List.length_cons]
      omega
    have hinside : List.Forall₂ (Numbers (documentOf builder)) ((openedOf builder).drop (outer.length + 1))
        inner := by
      rw [hopened, ← List.singleton_append, ← List.append_assoc] at hnumbers
      simpa using List.forall₂_drop_append _ _ _ hnumbers
    have htake : builder.opened.take inner.reverse.length = inner.reverse := by
      rw [hshape, List.take_left]
    rw [hlast, ok_bind, hfind]
    simp only [itemsFrom_eq hlength, ok_bind, htake]
    rcases lastRequired?_spec hinside with
      ⟨hrequired, hlast⟩ | ⟨blocking, number, hrequired, hnumber, hlast⟩
    · rw [hlast, hrequired]
      refine ⟨?_, ?_⟩
      · have houter : (Builder.closeMany (inner.reverse.length + 1) builder).opened.reverse = outer := by
          rw [Builder.opened_closeMany, hshape, ← List.singleton_append, ← List.append_assoc,
            List.drop_left' (by simp), List.reverse_reverse]
        have htaken := take_openNumbers 0 outer (found :: inner)
        rw [← hopened] at htaken
        simp only [Except.map, openedOf, houter, ← htaken]
        rfl
      · intro builder' hbuilder'
        cases hbuilder'
        exact documentOf_closeMany builder _
    · rw [hlast, hrequired]
      refine ⟨?_, by simp⟩
      simp only [ok_bind, tagOf_spec hnumber]
      rfl

theorem addToken_spec (builder : Builder) (placed : Placed) :
    addToken (documentOf builder) (openedOf builder) placed =
      .ok ((builder.add placed).map fun builder => (documentOf builder, openedOf builder)) := by
  obtain ⟨token, position⟩ := placed
  cases token with
  | leaf l =>
    have hpush := push_spec builder (.leaf l) position
    simp only [addToken, hpush, ok_bind]
    rfl
  | openTag tag =>
    obtain ⟨hopened, hdocument⟩ := makeWayFor_spec builder tag.name
    have hpush := push_spec (builder.makeWayFor tag.name) (.element tag) position
    rw [hdocument] at hpush
    simp only [addToken, hopened, hpush, ok_bind, Builder.add, Builder.openElement]
    cases tag.isEmpty with
    | true => rfl
    | false =>
      have hlength : (documentOf builder).items.length =
          (spine (builder.makeWayFor tag.name).finished
            (builder.makeWayFor tag.name).opened.reverse).size := by
        rw [← hdocument]
        exact Forest.length_items ..
      simp only [hlength, Bool.false_eq_true, if_false]
      simp only [Except.map, documentOf, openedOf, List.reverse_cons, spine_concat,
        openNumbers_concat, Nat.zero_add]
      rfl
  | closeTag name =>
    obtain ⟨hclose, hdocument⟩ := closeElement_spec builder name
    rw [Builder.add_closeTag]
    simp only [addToken, hclose, ok_bind]
    split
    · rfl
    · cases hclosed : builder.closeElement name with
      | error cause => rfl
      | ok builder' =>
        simp only [Except.map, Except.mapError, hdocument builder' hclosed]
        rfl

theorem finish_spec (builder : Builder) :
    finish (documentOf builder) (openedOf builder) = .ok (builder.finish.map Forest.document) := by
  have hclosed : (Builder.closeMany builder.opened.length builder).finished.reverse.document =
      documentOf builder := by
    rw [← documentOf_closeMany builder builder.opened.length, documentOf, Builder.closeMany_opened]
    rfl
  rw [finish, Builder.finish]
  rcases lastRequired?_spec (numbers_openedOf builder) with
    ⟨hrequired, hlast⟩ | ⟨blocking, number, hrequired, hnumber, hlast⟩
  · rw [List.reverse_reverse] at hrequired
    rw [hlast, hrequired]
    simp only [ok_bind, Except.map, hclosed]
    rfl
  · rw [List.reverse_reverse] at hrequired
    obtain ⟨found, hitem, htag, hposition⟩ := hnumber
    rw [hlast, hrequired]
    simp only [ok_bind, hitem, htag, hposition]
    rfl

/-! ## Whole documents -/

/-- The forest of a stream that is added to what has been built. -/
def forestFrom (builder : Builder) (stream : TokenStream) : Except Fault Forest := do
  let builder ← stream.tokens.foldlM Builder.add builder
  match stream.fault with
  | some fault => .error fault
  | none => builder.finish

theorem addTokens_spec (fault : Option Fault) (tokens : List Placed) (builder : Builder) :
    addTokens fault tokens (documentOf builder) (openedOf builder) =
      .ok ((forestFrom builder ⟨tokens, fault⟩).map Forest.document) := by
  induction tokens generalizing builder with
  | nil =>
    cases fault with
    | some fault => rfl
    | none => exact finish_spec builder
  | cons placed later ih =>
    simp only [addTokens, addToken_spec, ok_bind, forestFrom, List.foldlM_cons]
    cases builder.add placed with
    | error fault => rfl
    | ok builder => exact ih builder

theorem documentOfTokens_spec (stream : TokenStream) :
    documentOfTokens stream = .ok ((Forest.ofTokens stream).map Forest.document) :=
  addTokens_spec stream.fault stream.tokens .empty

/-- Reading the tokens one at a time or all at once makes no difference. -/
theorem buildFrom_eq {source : Text} {reader : Reader} (h : ReadsIn source reader) {rounds : Nat}
    (hrounds : reader.rest.length < rounds) (document : Document) (opened : List Nat) :
    buildFrom source rounds (cursorOf reader) document opened =
      addTokens reader.stream.fault reader.stream.tokens document opened := by
  induction rounds generalizing reader document opened with
  | zero => omega
  | succ rounds ih =>
    obtain ⟨hnext, hlater⟩ := next_spec h
    rw [buildFrom, hnext, ok_bind, Reader.stream_eq]
    rcases hfound : reader.next with ⟨outcome, later⟩
    rw [hfound] at hlater
    match outcome with
    | .error fault => rfl
    | .ok none => rfl
    | .ok (some placed) =>
      have hless := Reader.length_lt_of_next hfound
      have hmore := ih hlater (Nat.lt_of_lt_of_le hless (Nat.le_of_lt_succ hrounds))
      simp only [unlessFault, Except.map, addTokens, hmore]

theorem document_eq (source : Text) : document source = documentOfTokens (.ofSource source) := by
  have hlength := length_le_byteLength source
  exact buildFrom_eq (readsIn_ofSource source) (by simp only [Reader.ofSource]; omega) ⟨[], []⟩ []

theorem document_spec (source : Text) :
    document source = .ok ((Forest.ofSource source).map Forest.document) :=
  (document_eq source).trans (documentOfTokens_spec _)

end Guarded

end Phrasebook
