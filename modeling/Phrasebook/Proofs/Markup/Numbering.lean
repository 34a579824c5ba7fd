import Mathlib.Data.List.Nodup
import Mathlib.Logic.Relation
import Phrasebook.Markup.Outline
import Phrasebook.Proofs.Markup.Building

/-!
# The numbers of nodes

A node has the number of the tokens before its own that make nodes. The subtree of a node is then a range
of numbers that begins with its own, and the subtrees of siblings lie one behind the other: so a reader
that skips to the end of a subtree, or looks a node up by its number, finds what it should.
-/

namespace Phrasebook.Markup

/-! ## The invariant -/

/-- A node that cannot have anything inside. -/
def Node.isEmpty : Node → Bool
  | .leaf _ => true
  | .element tag => tag.isEmpty

namespace Outline

/-- The subtrees of the listed nodes, all directly below `parent`, lie one behind the other from `start`
up to `stop`. -/
def Tiles (rows : List Row) (parent : Option Nat) (start : Nat) : List Nat → Nat → Prop
  | [], stop => start = stop
  | number :: others, stop =>
    number = start ∧ ∃ row, rows[number]? = some row ∧ row.parent = parent ∧ number < row.stop ∧
      Tiles rows parent row.stop others stop

/-- Whether one goes from the first node to the second by children. -/
def Reaches (rows : List Row) : Nat → Nat → Prop :=
  Relation.ReflTransGen fun above below => ∃ row, rows[above]? = some row ∧ below ∈ row.children

/-- What the numbers of nodes are relied on for. -/
structure Numbered (roots : List Nat) (rows : List Row) : Prop where
  /-- Each number stands once among the roots and the children of all nodes. -/
  once : (roots ++ rows.flatMap (·.children)).Perm (List.range rows.length)
  root_iff : ∀ {number} {row : Row}, rows[number]? = some row → (number ∈ roots ↔ row.parent = none)
  child_iff : ∀ {number above} {row outer : Row}, rows[number]? = some row →
    rows[above]? = some outer → (number ∈ outer.children ↔ row.parent = some above)
  lt_child : ∀ {number child} {row : Row}, rows[number]? = some row → child ∈ row.children → number < child
  roots_increase : roots.Pairwise (· < ·)
  children_increase : ∀ row ∈ rows, row.children.Pairwise (· < ·)
  empty_children : ∀ row ∈ rows, row.node.isEmpty = true → row.children = []
  reaches_iff : ∀ {number} {row : Row}, rows[number]? = some row →
    ∀ other, Reaches rows number other ↔ number ≤ other ∧ other < row.stop
  roots_tile : Tiles rows none 0 roots rows.length
  children_tile : ∀ {number} {row : Row}, rows[number]? = some row →
    Tiles rows (some number) (number + 1) row.children row.stop

/-! ## What tiling means -/

section

variable {rows : List Row}

theorem le_of_tiles {parent : Option Nat} {start stop : Nat} {numbers : List Nat}
    (h : Tiles rows parent start numbers stop) : start ≤ stop := by
  induction numbers generalizing start with
  | nil => exact Nat.le_of_eq h
  | cons number others ih =>
    obtain ⟨rfl, row, -, -, hlt, hrest⟩ := h
    exact Nat.le_trans (Nat.le_of_lt hlt) (ih hrest)

theorem row_of_tiles {parent : Option Nat} {start stop number : Nat} {numbers : List Nat}
    (h : Tiles rows parent start numbers stop) (hmem : number ∈ numbers) :
    ∃ row, rows[number]? = some row ∧ row.parent = parent ∧ start ≤ number ∧ number < row.stop ∧
      row.stop ≤ stop := by
  induction numbers generalizing start with
  | nil => cases hmem
  | cons first others ih =>
    obtain ⟨rfl, row, hrow, hparent, hlt, hrest⟩ := h
    rcases List.mem_cons.mp hmem with rfl | hmem
    · exact ⟨row, hrow, hparent, Nat.le_refl _, hlt, le_of_tiles hrest⟩
    · obtain ⟨other, hother, hp, hle, hlt', hstop⟩ := ih hrest hmem
      exact ⟨other, hother, hp, by omega, hlt', hstop⟩

theorem increase_of_tiles {parent : Option Nat} {start stop : Nat} {numbers : List Nat}
    (h : Tiles rows parent start numbers stop) : numbers.Pairwise (· < ·) := by
  induction numbers generalizing start with
  | nil => exact List.Pairwise.nil
  | cons number others ih =>
    obtain ⟨rfl, row, -, -, hlt, hrest⟩ := h
    refine List.pairwise_cons.mpr ⟨?_, ih hrest⟩
    intro other hmem
    obtain ⟨-, -, -, hle, -, -⟩ := row_of_tiles hrest hmem
    omega

theorem cover_of_tiles {parent : Option Nat} {start stop other : Nat} {numbers : List Nat}
    (h : Tiles rows parent start numbers stop) (hle : start ≤ other) (hlt : other < stop) :
    ∃ number ∈ numbers, ∃ row, rows[number]? = some row ∧ number ≤ other ∧ other < row.stop := by
  induction numbers generalizing start with
  | nil =>
    have : start = stop := h
    omega
  | cons number others ih =>
    obtain ⟨rfl, row, hrow, -, -, hrest⟩ := h
    by_cases hin : other < row.stop
    · exact ⟨number, List.mem_cons_self, row, hrow, hle, hin⟩
    · obtain ⟨found, hmem, hfound⟩ := ih hrest (by omega)
      exact ⟨found, List.mem_cons_of_mem _ hmem, hfound⟩

variable (children : ∀ {number} {row : Row}, rows[number]? = some row →
  Tiles rows (some number) (number + 1) row.children row.stop)

include children

theorem row_of_reaches {number other : Nat} {row : Row} (hrow : rows[number]? = some row)
    (h : Reaches rows number other) :
    ∃ found, rows[other]? = some found ∧ number ≤ other ∧ found.stop ≤ row.stop := by
  induction h with
  | refl => exact ⟨row, hrow, Nat.le_refl _, Nat.le_refl _⟩
  | tail _ hstep ih =>
    obtain ⟨above, habove, hle, hstop⟩ := ih
    obtain ⟨outer, houter, hmem⟩ := hstep
    obtain rfl : above = outer := Option.some.inj (habove.symm.trans houter)
    obtain ⟨found, hfound, -, hle', -, hstop'⟩ := row_of_tiles (children habove) hmem
    exact ⟨found, hfound, by omega, by omega⟩

theorem reaches_of_lt {number other : Nat} {row : Row} (hrow : rows[number]? = some row)
    (hle : number ≤ other) (hlt : other < row.stop) : Reaches rows number other := by
  -- Every step down makes the range of the subtree shorter at its beginning.
  induction hn : other - number using Nat.strongRecOn generalizing number row with
  | ind n ih =>
    by_cases heq : number = other
    · subst heq
      exact Relation.ReflTransGen.refl
    · obtain ⟨child, hmem, inner, hinner, hle', hlt'⟩ :=
        cover_of_tiles (children hrow) (by omega : number + 1 ≤ other) hlt
      obtain ⟨-, -, -, hstart, -, -⟩ := row_of_tiles (children hrow) hmem
      exact Relation.ReflTransGen.head ⟨row, hrow, hmem⟩
        (ih (other - child) (by omega) hinner hle' hlt' rfl)

theorem reaches_iff_of_tiles {number other : Nat} {row : Row} (hrow : rows[number]? = some row) :
    Reaches rows number other ↔ number ≤ other ∧ other < row.stop := by
  constructor
  · intro h
    obtain ⟨found, hfound, hle, hstop⟩ := row_of_reaches children hrow h
    have := le_of_tiles (children hfound)
    exact ⟨hle, by omega⟩
  · rintro ⟨hle, hlt⟩
    exact reaches_of_lt children hrow hle hlt

/-- A node in a range of subtrees is one of those on top or a child of some node. -/
theorem listed_of_tiles {parent : Option Nat} {start stop other : Nat} {numbers : List Nat}
    (h : Tiles rows parent start numbers stop) (hle : start ≤ other) (hlt : other < stop) :
    other ∈ numbers ∨ ∃ (above : Nat) (outer : Row), rows[above]? = some outer ∧ other ∈ outer.children := by
  obtain ⟨number, hmem, row, hrow, hle', hlt'⟩ := cover_of_tiles h hle hlt
  rcases (reaches_of_lt children hrow hle' hlt').cases_tail with rfl | ⟨above, -, outer, houter, hin⟩
  · exact Or.inl hmem
  · exact Or.inr ⟨above, outer, houter, hin⟩

variable {roots : List Nat} (hroots : Tiles rows none 0 roots rows.length)

include hroots

theorem root_iff_of_tiles {number : Nat} {row : Row} (hrow : rows[number]? = some row) :
    number ∈ roots ↔ row.parent = none := by
  constructor
  · intro hmem
    obtain ⟨found, hfound, hparent, -⟩ := row_of_tiles hroots hmem
    rwa [← Option.some.inj (hfound.symm.trans hrow)]
  · intro hparent
    have hlt := (List.getElem?_eq_some_iff.mp hrow).1
    rcases listed_of_tiles children hroots (Nat.zero_le _) hlt with hmem | ⟨above, outer, houter, hin⟩
    · exact hmem
    · obtain ⟨found, hfound, habove, -⟩ := row_of_tiles (children houter) hin
      rw [Option.some.inj (hfound.symm.trans hrow), hparent] at habove
      cases habove

theorem child_iff_of_tiles {number above : Nat} {row outer : Row}
    (hrow : rows[number]? = some row) (houter : rows[above]? = some outer) :
    number ∈ outer.children ↔ row.parent = some above := by
  constructor
  · intro hmem
    obtain ⟨found, hfound, hparent, -⟩ := row_of_tiles (children houter) hmem
    rwa [← Option.some.inj (hfound.symm.trans hrow)]
  · intro hparent
    have hlt := (List.getElem?_eq_some_iff.mp hrow).1
    rcases listed_of_tiles children hroots (Nat.zero_le _) hlt with hmem | ⟨other, found, hfound, hin⟩
    · rw [(root_iff_of_tiles children hroots hrow).mp hmem] at hparent
      cases hparent
    · obtain ⟨same, hsame, hother, -⟩ := row_of_tiles (children hfound) hin
      rw [Option.some.inj (hsame.symm.trans hrow), hparent] at hother
      obtain rfl : above = other := Option.some.inj hother
      rwa [Option.some.inj (houter.symm.trans hfound)]

theorem once_of_tiles : (roots ++ rows.flatMap (·.children)).Perm (List.range rows.length) := by
  have nodup : ∀ {row}, row ∈ rows → row.children.Nodup := by
    intro row hmem
    obtain ⟨number, hrow⟩ := List.mem_iff_getElem?.mp hmem
    exact (increase_of_tiles (children hrow)).imp fun h => Nat.ne_of_lt h
  have hleft : (roots ++ rows.flatMap (·.children)).Nodup := by
    refine List.nodup_append'.mpr ⟨(increase_of_tiles hroots).imp fun h => Nat.ne_of_lt h, ?_, ?_⟩
    · refine List.nodup_flatMap.mpr ⟨fun row hmem => nodup hmem, ?_⟩
      rw [List.pairwise_iff_getElem]
      intro i j hi hj hij number hin hjn
      have hrowi := List.getElem?_eq_getElem hi
      have hrowj := List.getElem?_eq_getElem hj
      obtain ⟨row, hrow, -⟩ := row_of_tiles (children hrowi) hin
      have hpi := (child_iff_of_tiles children hroots hrow hrowi).mp hin
      have hpj := (child_iff_of_tiles children hroots hrow hrowj).mp hjn
      rw [hpi] at hpj
      have := Option.some.inj hpj
      omega
    · intro number hmem hin
      obtain ⟨outer, houter, hin⟩ := List.mem_flatMap.mp hin
      obtain ⟨above, habove⟩ := List.mem_iff_getElem?.mp houter
      obtain ⟨row, hrow, hparent, -⟩ := row_of_tiles hroots hmem
      rw [(child_iff_of_tiles children hroots hrow habove).mp hin] at hparent
      cases hparent
  refine (List.perm_ext_iff_of_nodup hleft List.nodup_range).mpr ?_
  intro number
  rw [List.mem_append, List.mem_flatMap, List.mem_range]
  constructor
  · rintro (hmem | ⟨outer, houter, hin⟩)
    · obtain ⟨row, hrow, -⟩ := row_of_tiles hroots hmem
      exact (List.getElem?_eq_some_iff.mp hrow).1
    · obtain ⟨above, habove⟩ := List.mem_iff_getElem?.mp houter
      obtain ⟨row, hrow, -⟩ := row_of_tiles (children habove) hin
      exact (List.getElem?_eq_some_iff.mp hrow).1
  · intro hlt
    rcases listed_of_tiles children hroots (Nat.zero_le _) hlt with hmem | ⟨above, outer, houter, hin⟩
    · exact Or.inl hmem
    · exact Or.inr ⟨outer, List.mem_of_getElem? houter, hin⟩

theorem numbered_of_tiles (hempty : ∀ row ∈ rows, row.node.isEmpty = true → row.children = []) :
    Numbered roots rows where
  once := once_of_tiles children hroots
  root_iff := root_iff_of_tiles children hroots
  child_iff := child_iff_of_tiles children hroots
  lt_child := by
    intro number row child hrow hmem
    obtain ⟨-, -, -, hle, -⟩ := row_of_tiles (children hrow) hmem
    omega
  roots_increase := increase_of_tiles hroots
  children_increase := by
    intro row hmem
    obtain ⟨number, hrow⟩ := List.mem_iff_getElem?.mp hmem
    exact increase_of_tiles (children hrow)
  empty_children := hempty
  reaches_iff := fun hrow _ => reaches_iff_of_tiles children hrow
  roots_tile := hroots
  children_tile := children

end

end Outline

namespace Forest

/-! ## The rows of a forest tile it -/

theorem length_rows (omitted : Text) (forest : Forest) (parent : Option Nat) (first : Nat)
    (comment : Option Text) : (forest.rows omitted parent first comment).length = forest.size := by
  induction forest generalizing parent first comment with
  | nil => rfl
  | leaf l position siblings ih => rw [rows, List.length_cons, ih, size, Nat.add_comm]
  | element tag position children siblings ihc ihs =>
    rw [rows, List.length_cons, List.length_append, ihc, ihs, size]
    omega

/-- The nodes of a forest tile their range of numbers, and so do the children of each. -/
theorem tiles_rows (omitted : Text) (forest : Forest) (before after : List Outline.Row)
    (parent : Option Nat) (comment : Option Text) {all : List Outline.Row}
    (hall : all = before ++ (forest.rows omitted parent before.length comment ++ after)) :
    Outline.Tiles all parent before.length (forest.numbers before.length)
        (before.length + forest.size) ∧
      ∀ {number row}, before.length ≤ number → number < before.length + forest.size →
        all[number]? = some row →
          Outline.Tiles all (some number) (number + 1) row.children row.stop := by
  induction forest generalizing before after parent comment with
  | nil =>
    refine ⟨rfl, ?_⟩
    intro number row hle hlt
    rw [size] at hlt
    omega
  | leaf l position siblings ih =>
    rw [rows] at hall
    obtain ⟨hsiblings, hbehind⟩ := ih (before ++ [⟨.leaf l, position, parent, [],
      before.length + 1, comment, []⟩]) after parent (l.commentBehind comment) (by simp [hall])
    have hhead : all[before.length]? = some ⟨.leaf l, position, parent, [], before.length + 1,
      comment, []⟩ := by simp [hall]
    rw [List.length_append, List.length_singleton] at hsiblings hbehind
    rw [numbers, size, ← Nat.add_assoc]
    refine ⟨⟨rfl, _, hhead, rfl, Nat.lt_succ_self _, hsiblings⟩, ?_⟩
    intro number row hle hlt hrow
    by_cases heq : number = before.length
    · rw [heq, hhead] at hrow
      cases hrow
      rw [heq]
      rfl
    · exact hbehind (by omega) hlt hrow
  | element tag position children siblings ihc ihs =>
    rw [rows] at hall
    generalize hrow : (⟨.element tag, position, parent, children.numbers (before.length + 1),
      before.length + 1 + children.size, comment, children.write omitted⟩ : Outline.Row) = head
      at hall
    obtain ⟨hchildren, hbelow⟩ := ihc (before ++ [head])
      (siblings.rows omitted parent (before.length + 1 + children.size) none ++ after)
      (some before.length) none (by simp [hall])
    have hlength : (before ++ head ::
        children.rows omitted (some before.length) (before.length + 1) none).length =
          before.length + 1 + children.size := by
      rw [List.length_append, List.length_cons, length_rows]
      omega
    obtain ⟨hsiblings, hbehind⟩ := ihs (before ++ head ::
      children.rows omitted (some before.length) (before.length + 1) none) after parent none
      (by rw [hlength]; simp [hall])
    have hhead : all[before.length]? = some head := by simp [hall]
    rw [List.length_append, List.length_singleton] at hchildren hbelow
    rw [hlength] at hsiblings hbehind
    rw [numbers, size, ← Nat.add_assoc, ← Nat.add_assoc]
    subst hrow
    refine ⟨⟨rfl, _, hhead, rfl, by simp only; omega, hsiblings⟩, ?_⟩
    intro number row hle hlt hrow
    by_cases heq : number = before.length
    · rw [heq, hhead] at hrow
      cases hrow
      rw [heq]
      exact hchildren
    · by_cases hinside : number < before.length + 1 + children.size
      · exact hbelow (by omega) hinside hrow
      · exact hbehind (by omega) hlt hrow

/-! ## The nodes of a forest, in the order of the page -/

def placedNodes : Forest → List (Node × Position)
  | nil => []
  | leaf l position siblings => (.leaf l, position) :: siblings.placedNodes
  | element tag position children siblings =>
    (.element tag, position) :: (children.placedNodes ++ siblings.placedNodes)

/-- The nodes of a row that stands in reverse, as a builder keeps it. -/
def reversedNodes : Forest → List (Node × Position)
  | nil => []
  | leaf l position siblings => siblings.reversedNodes ++ [(.leaf l, position)]
  | element tag position children siblings =>
    siblings.reversedNodes ++ (.element tag, position) :: children.placedNodes

theorem placedNodes_reverseOnto (behind forest : Forest) :
    (reverseOnto behind forest).placedNodes = forest.reversedNodes ++ behind.placedNodes := by
  induction forest generalizing behind with
  | nil => rfl
  | leaf l position siblings ih => simp [reverseOnto, reversedNodes, ih, placedNodes]
  | element tag position children siblings _ ih =>
    simp [reverseOnto, reversedNodes, ih, placedNodes]

theorem placedNodes_reverse (forest : Forest) :
    forest.reverse.placedNodes = forest.reversedNodes := by
  rw [reverse, placedNodes_reverseOnto, placedNodes, List.append_nil]

theorem map_placed_rows (omitted : Text) (forest : Forest) (parent : Option Nat) (first : Nat)
    (comment : Option Text) :
    (forest.rows omitted parent first comment).map (fun row => (row.node, row.position)) =
      forest.placedNodes := by
  induction forest generalizing parent first comment with
  | nil => rfl
  | leaf l position siblings ih => rw [rows, List.map_cons, ih, placedNodes]
  | element tag position children siblings ihc ihs =>
    rw [rows, List.map_cons, List.map_append, ihc, ihs, placedNodes]

/-- Elements that cannot have anything inside have nothing inside. -/
def RespectsEmpty : Forest → Prop
  | nil => True
  | leaf _ _ siblings => siblings.RespectsEmpty
  | element tag _ children siblings =>
    (tag.isEmpty = true → children = nil) ∧ children.RespectsEmpty ∧ siblings.RespectsEmpty

theorem respectsEmpty_reverseOnto {behind forest : Forest} (hb : behind.RespectsEmpty)
    (h : forest.RespectsEmpty) : (reverseOnto behind forest).RespectsEmpty := by
  induction forest generalizing behind with
  | nil => exact hb
  | leaf l position siblings ih => exact ih hb h
  | element tag position children siblings _ ih =>
    obtain ⟨hempty, hc, hs⟩ := h
    exact ih ⟨hempty, hc, hb⟩ hs

theorem empty_children_of_respectsEmpty {forest : Forest} (h : forest.RespectsEmpty)
    (omitted : Text) (parent : Option Nat) (first : Nat) (comment : Option Text) :
    ∀ row ∈ forest.rows omitted parent first comment,
      row.node.isEmpty = true → row.children = [] := by
  induction forest generalizing parent first comment with
  | nil => simp [rows]
  | leaf l position siblings ih =>
    rw [rows, List.forall_mem_cons]
    exact ⟨fun _ => rfl, ih h _ _ _⟩
  | element tag position children siblings ihc ihs =>
    obtain ⟨hempty, hc, hs⟩ := h
    rw [rows, List.forall_mem_cons, List.forall_mem_append]
    refine ⟨?_, ihc hc _ _ _, ihs hs _ _ _⟩
    intro he
    rw [hempty he]
    rfl

end Forest

/-! ## The nodes in a builder -/

/-- The node that a token makes, with its place. -/
def Placed.node? (placed : Placed) : Option (Node × Position) :=
  match placed.token with
  | .leaf l => some (.leaf l, placed.position)
  | .openTag tag => some (.element tag, placed.position)
  | .closeTag _ => none

def openedNodes : List OpenElement → List (Node × Position)
  | [] => []
  | innermost :: outer =>
    openedNodes outer ++
      (innermost.before.reversedNodes ++ [(.element innermost.tag, innermost.position)])

namespace Builder

def nodes (builder : Builder) : List (Node × Position) :=
  openedNodes builder.opened ++ builder.finished.reversedNodes

theorem nodes_close (builder : Builder) : builder.close.nodes = builder.nodes := by
  obtain ⟨finished, opened⟩ := builder
  cases opened with
  | nil => rfl
  | cons innermost outer =>
    simp [close, nodes, openedNodes, Forest.reversedNodes, Forest.placedNodes_reverse]

/-- The builder holds the nodes of these tokens, in their order. -/
structure Holds (seen : List Placed) (builder : Builder) : Prop where
  nodes : builder.nodes = seen.filterMap Placed.node?
  finished : builder.finished.RespectsEmpty
  opened : ∀ element ∈ builder.opened,
    element.tag.isEmpty = false ∧ element.before.RespectsEmpty

theorem holds_empty : Holds [] empty := ⟨rfl, trivial, by simp [empty]⟩

theorem holds_close {seen : List Placed} {builder : Builder} (h : Holds seen builder) :
    Holds seen builder.close := by
  refine ⟨(nodes_close builder).trans h.nodes, ?_, ?_⟩
  · obtain ⟨finished, opened⟩ := builder
    cases opened with
    | nil => exact h.finished
    | cons innermost outer =>
      obtain ⟨hempty, hbefore⟩ := h.opened innermost List.mem_cons_self
      refine ⟨?_, Forest.respectsEmpty_reverseOnto trivial h.finished, hbefore⟩
      intro he
      rw [hempty] at he
      cases he
  · rw [opened_close]
    exact fun element hmem => h.opened element (List.mem_of_mem_tail hmem)

theorem holds_makeWayFor {seen : List Placed} {builder : Builder} (h : Holds seen builder)
    (name : Text) : Holds seen (builder.makeWayFor name) := by
  unfold makeWayFor
  split
  · exact holds_close h
  · exact h

theorem holds_add {seen : List Placed} {builder builder' : Builder} {placed : Placed}
    (h : Holds seen builder) (hadd : builder.add placed = .ok builder') :
    Holds (seen ++ [placed]) builder' := by
  obtain ⟨token, position⟩ := placed
  cases token with
  | leaf l =>
    cases hadd
    refine ⟨?_, h.finished, h.opened⟩
    rw [List.filterMap_append, ← h.nodes]
    simp [Builder.nodes, addLeaf, Forest.reversedNodes, Placed.node?]
  | openTag tag =>
    cases hadd
    obtain ⟨hnodes, hfinished, hopened⟩ := holds_makeWayFor h tag.name
    rw [openElement]
    split
    · refine ⟨?_, ⟨fun _ => rfl, trivial, hfinished⟩, hopened⟩
      rw [List.filterMap_append, ← hnodes]
      simp [Builder.nodes, Forest.reversedNodes, Forest.placedNodes, Placed.node?]
    · rename_i hempty
      refine ⟨?_, trivial, ?_⟩
      · rw [List.filterMap_append, ← hnodes]
        simp [Builder.nodes, openedNodes, Forest.reversedNodes, Placed.node?]
      · rw [List.forall_mem_cons]
        exact ⟨⟨by simpa using hempty, hfinished⟩, hopened⟩
  | closeTag name =>
    have hseen : (seen ++ [Placed.mk (.closeTag name) position]).filterMap Placed.node? =
        seen.filterMap Placed.node? := by
      rw [List.filterMap_append]
      exact List.append_nil _
    have hsame : ∀ {b : Builder}, Holds seen b →
        Holds (seen ++ [Placed.mk (.closeTag name) position]) b :=
      fun hb => ⟨hb.nodes.trans hseen.symm, hb.finished, hb.opened⟩
    simp only [add] at hadd
    split at hadd
    · cases hadd
      exact hsame h
    · obtain ⟨count, rfl⟩ := closeMany_of_closeElement (mapError_eq_ok hadd)
      exact hsame (closeMany_induction (P := Holds seen) holds_close h count)

theorem nodes_of_finish {seen : List Placed} {builder : Builder} {forest : Forest}
    (h : Holds seen builder) (hfinish : builder.finish = .ok forest) :
    forest.placedNodes = seen.filterMap Placed.node? ∧ forest.RespectsEmpty := by
  unfold finish at hfinish
  split at hfinish
  · cases hfinish
  · cases hfinish
    have hclosed := closeMany_induction (P := Holds seen) holds_close h builder.opened.length
    refine ⟨?_, Forest.respectsEmpty_reverseOnto trivial hclosed.finished⟩
    rw [Forest.placedNodes_reverse, ← hclosed.nodes, Builder.nodes, closeMany_opened]
    rfl

end Builder

namespace Forest

/-- The rows of a forest are the nodes of its tokens, in their order, and their numbers can be relied
on. -/
theorem numbered_outline {stream : TokenStream} {forest : Forest}
    (h : ofTokens stream = .ok forest) (omitted : Text) :
    (forest.outline omitted).map (fun row => (row.node, row.position)) =
        stream.tokens.filterMap Placed.node? ∧
      Outline.Numbered (forest.numbers 0) (forest.outline omitted) := by
  obtain ⟨builder, hrun, -, hfinish⟩ := Builder.ofTokens_eq_ok_iff.mp h
  have hholds := Builder.run_induction Builder.holds_empty Builder.holds_add hrun
  obtain ⟨hnodes, hempty⟩ := Builder.nodes_of_finish hholds hfinish
  obtain ⟨hroots, hchildren⟩ := tiles_rows omitted forest [] [] none none (List.append_nil _).symm
  have hlength : (forest.outline omitted).length = forest.size := length_rows _ _ _ _ _
  refine ⟨(map_placed_rows _ _ _ _ _).trans hnodes, Outline.numbered_of_tiles ?_ ?_ ?_⟩
  · intro number row hrow
    have hlt := (List.getElem?_eq_some_iff.mp hrow).1
    exact hchildren (Nat.zero_le _) (by rw [List.length_nil]; omega) hrow
  · rwa [hlength, ← Nat.zero_add forest.size]
  · exact empty_children_of_respectsEmpty hempty _ _ _ _

end Forest

end Phrasebook.Markup
