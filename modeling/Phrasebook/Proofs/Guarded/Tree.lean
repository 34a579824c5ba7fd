import Phrasebook.Proofs.Guarded.Document

/-!
# Reading a document

Here a page is read by following numbers: down to the last node of a subtree, through the children of a
node, and back over the siblings before it. A part of a page is a section of the list of its nodes, which
begins with the number of its first node. Main statement: of whatever tokens a document is made, its
numbers can be relied on.
-/

namespace Phrasebook

open Text

/-! ## Sections of lists -/

/-- The items of `part` stand in the list one behind the other from the number `first` on. -/
def SectionAt {α : Type} (list : List α) (first : Nat) (part : List α) : Prop :=
  ∃ ahead behind, list = ahead ++ (part ++ behind) ∧ ahead.length = first

section

variable {α : Type} {list part : List α} {first : Nat}

theorem sectionAt_self (list : List α) : SectionAt list 0 list := ⟨[], [], by simp, rfl⟩

theorem SectionAt.head {a : α} (h : SectionAt list first (a :: part)) : list[first]? = some a := by
  obtain ⟨ahead, behind, rfl, rfl⟩ := h
  simp

theorem SectionAt.tail {a : α} (h : SectionAt list first (a :: part)) :
    SectionAt list (first + 1) part := by
  obtain ⟨ahead, behind, rfl, rfl⟩ := h
  exact ⟨ahead ++ [a], behind, by simp, by simp⟩

theorem SectionAt.left {other : List α} (h : SectionAt list first (part ++ other)) :
    SectionAt list first part := by
  obtain ⟨ahead, behind, rfl, rfl⟩ := h
  exact ⟨ahead, other ++ behind, by simp, rfl⟩

theorem SectionAt.right {other : List α} (h : SectionAt list first (part ++ other)) :
    SectionAt list (first + part.length) other := by
  obtain ⟨ahead, behind, rfl, rfl⟩ := h
  exact ⟨ahead ++ part, behind, by simp, by simp⟩

theorem SectionAt.le_length (h : SectionAt list first part) : first + part.length ≤ list.length := by
  obtain ⟨ahead, behind, rfl, rfl⟩ := h
  simp only [List.length_append]
  omega

end

namespace Markup.Forest

/-! ## The numbers of a subtree -/

variable (first : Nat) (position : Position) (siblings : Forest)

theorem range'_leaf (l : Leaf) : List.range' first (leaf l position siblings).size =
    first :: List.range' (first + 1) siblings.size := by
  rw [size, Nat.add_comm, List.range'_succ]

theorem range'_element (tag : Tag) (children : Forest) :
    List.range' first (element tag position children siblings).size =
      first :: (List.range' (first + 1) children.size ++
        List.range' (first + 1 + children.size) siblings.size) := by
  rw [size, Nat.add_assoc, Nat.add_comm 1, List.range'_succ, List.range'_append_1]

end Markup.Forest

namespace Guarded

open Markup

/-! ## The end of a subtree -/

/-- The number behind the last node of the subtree that the last children lead to, in at most so many
rounds. -/
def stopFrom (document : Document) : Nat → Nat → Guarded Nat
  | 0, _ => .error .endless
  | rounds + 1, last => do
    let found ← item document.items last
    match found.children.getLast? with
    | some child => stopFrom document rounds child
    | none => return last + 1

def subtreeStop (document : Document) (number : Nat) : Guarded Nat :=
  stopFrom document (document.items.length + 1) number

/-! ## The children of a node -/

/-- The texts of the numbered nodes, one behind the other. -/
def concatTexts (text : Nat → Guarded Text) : List Nat → Guarded Text
  | [] => return []
  | number :: later => do
    let here ← text number
    let behind ← concatTexts text later
    return here ++ behind

/-- The markup of a node, at most so many levels deep. -/
def writeMarkup (document : Document) (omitted : Text) : Nat → Nat → Guarded Text
  | 0, _ => .error .endless
  | rounds + 1, number => do
    let found ← item document.items number
    match found.node with
    | .leaf l => return l.write
    | .element tag =>
      if tag.isEmpty then return tag.write omitted
      let inside ← concatTexts (writeMarkup document omitted rounds) found.children
      return tag.write omitted ++ (inside ++ endTag tag.name)

def innerMarkup (document : Document) (omitted : Text) (number : Nat) : Guarded Text := do
  let found ← item document.items number
  concatTexts (writeMarkup document omitted (document.items.length + 1)) found.children

/-! ## The comment before a node -/

/-- The numbers of the nodes below a parent, or of the roots. -/
def childrenOf (document : Document) : Option Nat → Guarded (List Nat)
  | none => return document.roots
  | some parent => do
    let outer ← item document.items parent
    return outer.children

/-- The first comment among these nodes, the nearest first, with blank text alone before it. -/
def nearestComment (document : Document) : List Nat → Guarded (Option Text)
  | [] => return none
  | number :: farther => do
    let found ← item document.items number
    match found.node with
    | .leaf (.comment content) => return some content
    | .leaf (.text content) => if allBlank content then nearestComment document farther else return none
    | _ => return none

def precedingComment (document : Document) (number : Nat) : Guarded (Option Text) := do
  let found ← item document.items number
  let siblings ← childrenOf document found.parent
  match siblings.findIdx? (fun sibling => sibling = number) with
  | none => return none
  | some place =>
    let before ← itemsTo siblings place
    nearestComment document before.reverse

/-! ## Parts of a page -/

/-- The forest is the part of the document from `first` on, directly below `parent`, and stands behind
`comment` among its siblings. -/
structure Part (document : Document) (parent : Option Nat) (first : Nat) (comment : Option Text)
    (forest : Forest) : Prop where
  items : SectionAt document.items first (forest.items parent first)
  siblings : ∃ done, childrenOf document parent = .ok (done ++ forest.numbers first) ∧
    (∀ number ∈ done, number < first) ∧ nearestComment document done.reverse = .ok comment

theorem part_document (forest : Forest) : Part forest.document none 0 none forest :=
  ⟨sectionAt_self _, [], rfl, by simp, rfl⟩

section

variable {document : Document} {parent : Option Nat} {first : Nat} {comment : Option Text}
  {siblings : Forest} {position : Position}

theorem Part.leaf {l : Leaf} (h : Part document parent first comment (.leaf l position siblings)) :
    item document.items first = .ok ⟨.leaf l, position, parent, []⟩ ∧
      Part document parent (first + 1) (l.commentBehind comment) siblings := by
  have hitem := item_eq h.items.head
  refine ⟨hitem, h.items.tail, ?_⟩
  obtain ⟨done, hchildren, hdone, hcomment⟩ := h.siblings
  refine ⟨done ++ [first], by rw [hchildren]; simp [Forest.numbers], ?_, ?_⟩
  · intro number hnumber
    rcases List.mem_append.mp hnumber with hnumber | hnumber
    · exact Nat.lt_succ_of_lt (hdone number hnumber)
    · simp_all
  · rw [List.reverse_append, List.reverse_singleton, List.singleton_append, nearestComment, hitem, ok_bind]
    cases l with
    | text content =>
      simp only [hcomment, Leaf.commentBehind]
      split <;> rfl
    | comment content => rfl
    | serverCode code => rfl

theorem Part.element {tag : Tag} {children : Forest}
    (h : Part document parent first comment (.element tag position children siblings)) :
    item document.items first = .ok ⟨.element tag, position, parent, children.numbers (first + 1)⟩ ∧
      Part document (some first) (first + 1) none children ∧
      Part document parent (first + 1 + children.size) none siblings := by
  have hitem := item_eq h.items.head
  have hinside := h.items.tail.left
  have hbehind := h.items.tail.right
  rw [Forest.length_items] at hbehind
  refine ⟨hitem, ⟨hinside, [], ?_, by simp, rfl⟩, hbehind, ?_⟩
  · rw [childrenOf, hitem]
    rfl
  · obtain ⟨done, hchildren, hdone, -⟩ := h.siblings
    refine ⟨done ++ [first], by rw [hchildren]; simp [Forest.numbers], ?_, ?_⟩
    · intro number hnumber
      rcases List.mem_append.mp hnumber with hnumber | hnumber
      · have := hdone number hnumber
        omega
      · rw [List.mem_singleton.mp hnumber]
        omega
    · rw [List.reverse_append, List.reverse_singleton, List.singleton_append, nearestComment, hitem]
      rfl

end

/-! ## What is read -/

theorem precedingComment_spec {document : Document} {parent : Option Nat} {first : Nat}
    {comment : Option Text} {forest : Forest} (h : Part document parent first comment forest)
    (hne : forest ≠ .nil) : precedingComment document first = .ok comment := by
  obtain ⟨found, later, hfound, hparent, hnumbers⟩ : ∃ found later,
      item document.items first = .ok found ∧ found.parent = parent ∧
        forest.numbers first = first :: later := by
    cases forest with
    | nil => exact absurd rfl hne
    | leaf l position siblings => exact ⟨_, _, h.leaf.1, rfl, rfl⟩
    | element tag position children siblings => exact ⟨_, _, h.element.1, rfl, rfl⟩
  obtain ⟨done, hchildren, hdone, hcomment⟩ := h.siblings
  rw [hnumbers] at hchildren
  have hnone : done.findIdx? (fun sibling => decide (sibling = first)) = none := by
    rw [List.findIdx?_eq_none_iff]
    exact fun number hnumber => decide_eq_false (Nat.ne_of_lt (hdone number hnumber))
  have hplace : (done ++ first :: later).findIdx? (fun sibling => decide (sibling = first)) =
      some done.length := by
    rw [List.findIdx?_append, hnone, List.findIdx?_cons]
    simp
  have hbefore : itemsTo (done ++ first :: later) done.length = .ok done := by
    rw [itemsTo_eq (by simp), List.take_left]
  rw [precedingComment, hfound, ok_bind, hparent, hchildren, ok_bind, hplace]
  simp only [hbefore, ok_bind, hcomment]

theorem size_eq_zero_of_numbers {first : Nat} {forest : Forest} (h : forest.numbers first = []) :
    forest.size = 0 := by
  cases forest with
  | nil => rfl
  | leaf l position siblings => cases h
  | element tag position children siblings => cases h

/-- Of several numbers, the last is also the last of all behind the first. -/
theorem getLast?_cons_cases {number last : Nat} {later : List Nat}
    (h : (number :: later).getLast? = some last) :
    later = [] ∧ number = last ∨ later.getLast? = some last := by
  cases later with
  | nil => exact .inl ⟨rfl, by simpa using h⟩
  | cons next later => exact .inr (by rwa [List.getLast?_cons_cons] at h)

theorem stopFrom_spec {document : Document} {parent : Option Nat} {first last rounds : Nat}
    {comment : Option Text} {forest : Forest} (h : Part document parent first comment forest)
    (hlast : (forest.numbers first).getLast? = some last) (hrounds : forest.size ≤ rounds) :
    stopFrom document rounds last = .ok (first + forest.size) := by
  induction forest generalizing parent first last comment rounds with
  | nil => cases hlast
  | leaf l position siblings ih =>
    obtain ⟨hitem, hsiblings⟩ := h.leaf
    rw [Forest.size] at hrounds ⊢
    rcases getLast?_cons_cases hlast with ⟨hnone, rfl⟩ | hlater
    · obtain ⟨rounds, rfl⟩ := Nat.exists_eq_add_one_of_ne_zero (by omega : rounds ≠ 0)
      rw [stopFrom, hitem, size_eq_zero_of_numbers hnone]
      rfl
    · rw [ih hsiblings hlater (by omega), Nat.add_assoc]
  | element tag position children siblings ihc ihs =>
    obtain ⟨hitem, hchildren, hsiblings⟩ := h.element
    rw [Forest.size] at hrounds ⊢
    rcases getLast?_cons_cases hlast with ⟨hnone, rfl⟩ | hlater
    · obtain ⟨rounds, rfl⟩ := Nat.exists_eq_add_one_of_ne_zero (by omega : rounds ≠ 0)
      rw [stopFrom, hitem, ok_bind, size_eq_zero_of_numbers hnone]
      cases hchild : (children.numbers (first + 1)).getLast? with
      | none =>
        rw [size_eq_zero_of_numbers (List.getLast?_eq_none_iff.mp hchild)]
        rfl
      | some child =>
        have hbelow := ihc hchildren hchild (by omega : children.size ≤ rounds)
        simp only [hbelow]
        congr 1
        omega
    · rw [ihs hsiblings hlater (by omega)]
      congr 1
      omega

theorem subtreeStop_spec {document : Document} {parent : Option Nat} {first : Nat}
    {comment : Option Text} {tag : Tag} {position : Position} {children siblings : Forest}
    (h : Part document parent first comment (.element tag position children siblings)) :
    subtreeStop document first = .ok (first + 1 + children.size) := by
  obtain ⟨hitem, hchildren, -⟩ := h.element
  have hlength := hchildren.items.le_length
  rw [Forest.length_items] at hlength
  rw [subtreeStop, stopFrom, hitem, ok_bind]
  cases hchild : (children.numbers (first + 1)).getLast? with
  | none =>
    rw [size_eq_zero_of_numbers (List.getLast?_eq_none_iff.mp hchild)]
    rfl
  | some child => exact stopFrom_spec hchildren hchild (by omega)

theorem writeMarkup_spec {document : Document} {parent : Option Nat} {first rounds : Nat}
    {comment : Option Text} {forest : Forest} (h : Part document parent first comment forest)
    (hrounds : forest.size < rounds) (omitted : Text) :
    concatTexts (writeMarkup document omitted rounds) (forest.numbers first) =
      .ok (forest.write omitted) := by
  induction forest generalizing parent first comment rounds with
  | nil => rfl
  | leaf l position siblings ih =>
    obtain ⟨hitem, hsiblings⟩ := h.leaf
    obtain ⟨rounds, rfl⟩ := Nat.exists_eq_add_one_of_ne_zero (Nat.ne_zero_of_lt hrounds)
    rw [Forest.size] at hrounds
    rw [Forest.numbers, concatTexts, writeMarkup, hitem, ok_bind, ih hsiblings (by omega), Forest.write]
    rfl
  | element tag position children siblings ihc ihs =>
    obtain ⟨hitem, hchildren, hsiblings⟩ := h.element
    obtain ⟨rounds, rfl⟩ := Nat.exists_eq_add_one_of_ne_zero (Nat.ne_zero_of_lt hrounds)
    rw [Forest.size] at hrounds
    have hinside := ihc hchildren (by omega : children.size < rounds)
    rw [Forest.numbers, concatTexts, writeMarkup, hitem, ok_bind, ihs hsiblings (by omega), Forest.write]
    cases hempty : tag.isEmpty with
    | true => simp [hempty]
    | false => simp [hempty, hinside]

theorem innerMarkup_spec {document : Document} {parent : Option Nat} {first : Nat}
    {comment : Option Text} {tag : Tag} {position : Position} {children siblings : Forest}
    (h : Part document parent first comment (.element tag position children siblings))
    (omitted : Text) : innerMarkup document omitted first = .ok (children.write omitted) := by
  obtain ⟨hitem, hchildren, -⟩ := h.element
  have hlength := hchildren.items.le_length
  rw [Forest.length_items] at hlength
  rw [innerMarkup, hitem, ok_bind]
  exact writeMarkup_spec hchildren (by omega) omitted

end Guarded

/-! ## The numbers of a document -/

namespace Markup

open Guarded (Item Part)

/-- What a document keeps of a node. -/
def Outline.Row.item (row : Outline.Row) : Item := ⟨row.node, row.position, row.parent, row.children⟩

namespace Forest

theorem items_eq_map_rows (omitted : Text) (parent : Option Nat) (first : Nat) (comment : Option Text)
    (forest : Forest) :
    forest.items parent first = (forest.rows omitted parent first comment).map Outline.Row.item := by
  induction forest generalizing parent first comment with
  | nil => rfl
  | leaf l position siblings ih =>
    rw [items, rows, List.map_cons, ← ih]
    rfl
  | element tag position children siblings ihc ihs =>
    rw [items, rows, List.map_cons, List.map_append, ← ihc, ← ihs]
    rfl

/-- Going down to the last node of a subtree gives the end that its row says. -/
theorem subtreeStop_of_row {document : Guarded.Document} {parent : Option Nat} {first place : Nat}
    {comment : Option Text} {forest : Forest} (h : Part document parent first comment forest)
    {omitted : Text} {row : Outline.Row}
    (hrow : (forest.rows omitted parent first comment)[place]? = some row) :
    Guarded.subtreeStop document (first + place) = .ok row.stop := by
  induction forest generalizing parent first comment place with
  | nil => cases hrow
  | leaf l position siblings ih =>
    obtain ⟨hitem, hsiblings⟩ := h.leaf
    cases place with
    | zero =>
      cases hrow
      rw [Guarded.subtreeStop, Guarded.stopFrom, Nat.add_zero, hitem]
      rfl
    | succ place =>
      rw [Nat.add_comm place, ← Nat.add_assoc]
      exact ih hsiblings hrow
  | element tag position children siblings ihc ihs =>
    obtain ⟨-, hchildren, hsiblings⟩ := h.element
    cases place with
    | zero =>
      cases hrow
      exact Guarded.subtreeStop_spec h
    | succ place =>
      rw [rows, List.getElem?_cons_succ, List.getElem?_append, length_rows] at hrow
      split at hrow
      · rw [Nat.add_comm place, ← Nat.add_assoc]
        exact ihc hchildren hrow
      · have hplace : first + (place + 1) = first + 1 + children.size + (place - children.size) := by
          omega
        rw [hplace]
        exact ihs hsiblings hrow

/-- The nodes of a page have their numbers in the order of its tokens, and these can be relied on. The
document that the nodes are pushed to has the same parents, children and roots, and going down to the last
node of a subtree finds its end. -/
theorem numbered_of_ofTokens {stream : TokenStream} {forest : Forest}
    (h : ofTokens stream = .ok forest) (omitted : Text) :
    (forest.outline omitted).map (fun row => (row.node, row.position)) =
        stream.tokens.filterMap Placed.node? ∧
      Outline.Numbered (forest.numbers 0) (forest.outline omitted) ∧
      ∃ document, Guarded.documentOfTokens stream = .ok (.ok document) ∧
        document.roots = forest.numbers 0 ∧
        document.items = (forest.outline omitted).map Outline.Row.item ∧
        ∀ number row, (forest.outline omitted)[number]? = some row →
          Guarded.subtreeStop document number = .ok row.stop := by
  obtain ⟨hnodes, hnumbered⟩ := numbered_outline h omitted
  refine ⟨hnodes, hnumbered, forest.document, ?_, rfl, items_eq_map_rows .., ?_⟩
  · rw [Guarded.documentOfTokens_spec, h]
    rfl
  · intro number row hrow
    rw [← Nat.zero_add number]
    exact subtreeStop_of_row (Guarded.part_document forest) hrow

/-- In a list whose first item is closed by the second one, each item holds what stands in it. -/
theorem numbered_list :
    ∃ forest, ofTokens (.ofSource "<ul><li>a<li><br>b</ul>c") = .ok forest ∧
      forest.numbers 0 = [0, 6] ∧
      (forest.outline "lang").map (fun row => (row.children, row.stop)) =
        [([1, 3], 6), ([2], 3), ([], 3), ([4, 5], 6), ([], 5), ([], 6), ([], 7)] ∧
      (forest.outline "lang").map (fun row => (row.node, row.position)) =
        (TokenStream.ofSource "<ul><li>a<li><br>b</ul>c").tokens.filterMap Placed.node? ∧
      Outline.Numbered (forest.numbers 0) (forest.outline "lang") ∧
      ∃ document, Guarded.documentOfTokens (.ofSource "<ul><li>a<li><br>b</ul>c") = .ok (.ok document) ∧
        document.roots = forest.numbers 0 ∧
        document.items = (forest.outline "lang").map Outline.Row.item ∧
        ∀ number row, (forest.outline "lang")[number]? = some row →
          Guarded.subtreeStop document number = .ok row.stop := by
  have hsource : ofTokens (.ofSource "<ul><li>a<li><br>b</ul>c") =
      .ok (element ⟨"ul", [], false⟩ ⟨0, 1⟩
        (element ⟨"li", [], false⟩ ⟨4, 1⟩ (leaf (.text "a") ⟨8, 1⟩ nil)
          (element ⟨"li", [], false⟩ ⟨9, 1⟩
            (element ⟨"br", [], false⟩ ⟨13, 1⟩ nil (leaf (.text "b") ⟨17, 1⟩ nil)) nil))
        (leaf (.text "c") ⟨23, 1⟩ nil)) := by
    decide +kernel
  exact ⟨_, hsource, by decide +kernel, by decide +kernel, numbered_of_ofTokens hsource "lang"⟩

end Forest

end Markup

end Phrasebook
