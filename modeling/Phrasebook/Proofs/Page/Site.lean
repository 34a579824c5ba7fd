import Phrasebook.Markup.Outline
import Phrasebook.Proofs.Page.Walk

/-!
# Sites

A site is a node together with the elements around it. The walk over a page takes the sites in the
order of the page and collects what each yields, except for those inside a piece of markup that is
taken as a whole.
-/

namespace Phrasebook.Page

open Markup

/-! ## What stands around a node -/

/-- An element as it is seen from inside. -/
structure Outer where
  number : Nat
  comment : Option Text
  tag : Tag
  state : ScopeState
  children : Forest
  deriving DecidableEq, Repr

namespace Outer

def delegate? (rules : Rules) (outer : Outer) : Option Nat :=
  rules.delegate? outer.state outer.tag outer.number outer.children

def takeover? (rules : Rules) (outer : Outer) : Option Takeover :=
  (outer.delegate? rules).map (⟨·, outer.comment⟩)

def isEntered (rules : Rules) (outer : Outer) : Bool :=
  (visitElement rules outer.state outer.tag outer.children (outer.delegate? rules) none 0).entersChildren

end Outer

/-- The state that the elements around a node leave to it, where `base` is the state around them. -/
def innerState (base : ScopeState) : List Outer → ScopeState
  | [] => base
  | innermost :: _ => innermost.state

@[simp] theorem innerState_nil (base : ScopeState) : innerState base [] = base := rfl

@[simp] theorem innerState_cons (base : ScopeState) (innermost : Outer) (others : List Outer) :
    innerState base (innermost :: others) = innermost.state := rfl

@[simp] theorem innerState_append (base : ScopeState) (outers more : List Outer) :
    innerState base (outers ++ more) = innerState (innerState base more) outers := by
  cases outers <;> rfl

/-! ## Sites -/

structure Site where
  /-- The elements around the node, the innermost first. -/
  outers : List Outer
  number : Nat
  /-- The comment that the node stands behind. -/
  comment : Option Text
  node : Node
  position : Position
  state : ScopeState
  children : Forest
  deriving DecidableEq, Repr

/-- The sites of a forest inside `outers`. Its first node has the number `first` and stands behind
`comment`. -/
def sites (rules : Rules) (base : ScopeState) (outers : List Outer) (first : Nat)
    (comment : Option Text) : Forest → List Site
  | .nil => []
  | .leaf l position siblings =>
    ⟨outers, first, comment, .leaf l, position, (innerState base outers).below, .nil⟩ ::
      sites rules base outers (first + 1) (l.commentBehind comment) siblings
  | .element tag position children siblings =>
    let state := rules.state (innerState base outers) tag
    ⟨outers, first, comment, .element tag, position, state, children⟩ ::
      (sites rules base (⟨first, comment, tag, state, children⟩ :: outers) (first + 1) none children ++
        sites rules base outers (first + 1 + children.size) none siblings)

def pageSites (rules : Rules) (forest : Forest) : List Site := sites rules .inherit [] 0 none forest

namespace Site

/-- The sites inside a node. What stands around them is counted from the node on. -/
def below (rules : Rules) (site : Site) : List Site :=
  sites rules site.state [] (site.number + 1) none site.children

/-- Whether the node is inside a piece of markup that is taken as a whole. -/
def isCovered (rules : Rules) (site : Site) : Bool :=
  site.outers.any fun outer => !outer.isEntered rules

def takeovers (rules : Rules) (site : Site) : List Takeover :=
  site.outers.filterMap (Outer.takeover? rules)

/-- The phrases of the node itself. -/
def yield (rules : Rules) (site : Site) : Except Fault (List Phrase) :=
  match site.node with
  | .leaf (.serverCode code) =>
    if site.state = .forceOff then .ok [] else serverStrings site.position code
  | .leaf _ => .ok []
  | .element tag =>
    let delegate := rules.delegate? site.state tag site.number site.children
    .ok (visitElement rules site.state tag site.children delegate
      (hint (site.takeovers rules) site.number site.comment) site.position.line).phrases

/-- What the walk collects at the node, with the site. -/
def collect (rules : Rules) (site : Site) : Except Fault (List (Site × Phrase)) :=
  if site.isCovered rules then .ok [] else (site.yield rules).map (List.map (site, ·))

end Site

/-! ## The harvest -/

/-- The phrases of some sites, each with the site that yields it. -/
def gather (rules : Rules) : List Site → Except Fault (List (Site × Phrase))
  | [] => .ok []
  | site :: others => inOrder (site.collect rules) (gather rules others)

/-- The phrases of a page, each with its site. -/
def harvest (rules : Rules) (forest : Forest) : Except Fault (List (Site × Phrase)) :=
  gather rules (pageSites rules forest)

theorem collect_eq_ok {rules : Rules} {site : Site} {here : List (Site × Phrase)}
    (h : site.collect rules = .ok here) :
    (site.isCovered rules = true ∧ here = []) ∨
      ∃ phrases, site.isCovered rules = false ∧ site.yield rules = .ok phrases ∧
        here = phrases.map (site, ·) := by
  unfold Site.collect at h
  cases hcovered : site.isCovered rules with
  | true =>
    rw [hcovered, if_pos rfl] at h
    cases h
    exact Or.inl ⟨rfl, rfl⟩
  | false =>
    rw [hcovered, if_neg (by simp)] at h
    cases hyield : site.yield rules with
    | error fault =>
      rw [hyield] at h
      cases h
    | ok phrases =>
      rw [hyield] at h
      cases h
      exact Or.inr ⟨phrases, rfl, rfl, rfl⟩

theorem gather_append (rules : Rules) (a b : List Site) :
    gather rules (a ++ b) = inOrder (gather rules a) (gather rules b) := by
  induction a with
  | nil => rw [List.nil_append, gather, inOrder_nil]
  | cons site a ih => rw [List.cons_append, gather, gather, ih, inOrder_assoc]

theorem gather_of_covered {rules : Rules} {all : List Site}
    (h : ∀ site ∈ all, site.isCovered rules = true) : gather rules all = .ok [] := by
  induction all with
  | nil => rfl
  | cons site others ih =>
    rw [List.forall_mem_cons] at h
    rw [gather, Site.collect, if_pos h.1, ih h.2, inOrder_nil]

/-! ## The walk gathers -/

theorem outers_suffix {rules : Rules} {base : ScopeState} {outers : List Outer} {first : Nat}
    {comment : Option Text} {forest : Forest} :
    ∀ site ∈ sites rules base outers first comment forest, outers <:+ site.outers := by
  induction forest generalizing outers first comment with
  | nil => simp [sites]
  | leaf l position siblings ih =>
    rw [sites, List.forall_mem_cons]
    exact ⟨List.suffix_refl outers, ih⟩
  | element tag position children siblings ihc ihs =>
    rw [sites, List.forall_mem_cons, List.forall_mem_append]
    refine ⟨List.suffix_refl outers, ?_, ihs⟩
    intro site hsite
    exact (List.suffix_cons _ outers).trans (ihc site hsite)

theorem isCovered_of_mem {rules : Rules} {base : ScopeState} {outers : List Outer} {first : Nat}
    {comment : Option Text} {forest : Forest} {outer : Outer} (hin : outer ∈ outers)
    (h : outer.isEntered rules = false) :
    ∀ site ∈ sites rules base outers first comment forest, site.isCovered rules = true := by
  intro site hsite
  rw [Site.isCovered, List.any_eq_true]
  exact ⟨outer, (outers_suffix site hsite).subset hin, by rw [h]; rfl⟩

/-- Whether an element is entered does not depend on its hint and its line. -/
theorem isEntered_eq (rules : Rules) (outer : Outer) (hint : Option Text) (line : Nat) :
    outer.isEntered rules = (visitElement rules outer.state outer.tag outer.children
      (outer.delegate? rules) hint line).entersChildren := by
  unfold Outer.isEntered visitElement
  split
  · rfl
  · split
    · rfl
    · split
      · split <;> rfl
      · rfl

theorem leafPhrases_eq_yield (rules : Rules) (base : ScopeState) (outers : List Outer) (first : Nat)
    (comment : Option Text) (l : Leaf) (position : Position) :
    leafPhrases (innerState base outers) position l =
      Site.yield rules
        ⟨outers, first, comment, .leaf l, position, (innerState base outers).below, .nil⟩ := by
  cases l with
  | text content => rfl
  | comment content => rfl
  | serverCode code =>
    cases h : innerState base outers <;> simp [leafPhrases, Site.yield, ScopeState.below]

theorem map_collect {rules : Rules} {site : Site} (h : site.isCovered rules = false) :
    (site.collect rules).map (List.map Prod.snd) = site.yield rules := by
  rw [Site.collect, if_neg (by simp [h])]
  cases site.yield rules with
  | error fault => rfl
  | ok phrases => simp [Except.map, Function.comp_def]

theorem walk_eq_gather {rules : Rules} {base : ScopeState} {outers : List Outer}
    (hentered : outers.any (fun outer => !outer.isEntered rules) = false) (first : Nat)
    (comment : Option Text) (forest : Forest) :
    walk rules (innerState base outers) (outers.filterMap (Outer.takeover? rules)) first comment
        forest =
      (gather rules (sites rules base outers first comment forest)).map (List.map Prod.snd) := by
  induction forest generalizing outers first comment with
  | nil => rfl
  | leaf l position siblings ih =>
    rw [walk_leaf, sites, gather, map_inOrder, map_collect (by exact hentered), ih hentered,
      leafPhrases_eq_yield rules base outers first comment l position]
  | element tag position children siblings ihc ihs =>
    rw [walk_element, sites, gather, map_inOrder, map_collect (by exact hentered), gather_append,
      map_inOrder, ihs hentered]
    generalize houter : Outer.mk first comment tag (rules.state (innerState base outers) tag)
      children = outer
    have hself : (visitBelow rules (innerState base outers)
        (outers.filterMap (Outer.takeover? rules)) first comment tag position
        children).entersChildren = outer.isEntered rules := by
      rw [isEntered_eq rules outer (hint (outers.filterMap (Outer.takeover? rules)) first comment)
        position.line, ← houter]
      rfl
    have hinside : (if outer.isEntered rules = true then
        walk rules outer.state ((outer :: outers).filterMap (Outer.takeover? rules)) (first + 1) none
          children else .ok []) =
        (gather rules (sites rules base (outer :: outers) (first + 1) none children)).map
          (List.map Prod.snd) := by
      cases h : outer.isEntered rules with
      | true =>
        rw [if_pos rfl]
        have hboth : (outer :: outers).any (fun outer => !outer.isEntered rules) = false := by
          simpa [h] using hentered
        exact ihc hboth (first + 1) none
      | false =>
        rw [gather_of_covered (isCovered_of_mem List.mem_cons_self h)]
        rfl
    have htakeovers : takeoversInside rules (rules.state (innerState base outers) tag)
        (outers.filterMap (Outer.takeover? rules)) first comment tag children =
        (outer :: outers).filterMap (Outer.takeover? rules) := by
      rw [takeoversInside, List.filterMap_cons, Outer.takeover?, ← houter, Outer.delegate?]
      cases rules.delegate? (rules.state (innerState base outers) tag) tag first children <;> rfl
    rw [← hinside]
    simp only [hself, htakeovers]
    subst houter
    rfl

/-- The phrases of a page are its harvest. -/
theorem walk_eq_harvest (rules : Rules) (forest : Forest) :
    walk rules .inherit [] 0 none forest = (harvest rules forest).map (List.map Prod.snd) :=
  @walk_eq_gather rules .inherit [] rfl 0 none forest

theorem harvest_of_phrases {rules : Rules} {source : Text} {records : List Phrase}
    (h : phrases rules source = .ok records) :
    ∃ forest harvested, Forest.ofSource source = .ok forest ∧
      harvest rules forest = .ok harvested ∧ harvested.map Prod.snd = records := by
  obtain ⟨forest, hforest, hwalk⟩ := exists_walk_of_phrases h
  rw [walk_eq_harvest] at hwalk
  cases hharvest : harvest rules forest with
  | error fault =>
    rw [hharvest] at hwalk
    cases hwalk
  | ok harvested =>
    rw [hharvest] at hwalk
    cases hwalk
    exact ⟨forest, harvested, hforest, hharvest, rfl⟩

end Phrasebook.Page
