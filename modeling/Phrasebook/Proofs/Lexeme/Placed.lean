import Phrasebook.Lexeme.Placed

/-!
# Lexemes in their places

A lexeme with those before it and those behind it is a way to split the list. So two places in one list are
the same, or one of them is before the other.
-/

namespace Phrasebook.Lexeme

theorem lexemes_placedAfter (before lexemes : List Lexeme) :
    (placedAfter before lexemes).map (·.lexeme) = lexemes := by
  induction lexemes generalizing before with
  | nil => rfl
  | cons lexeme rest ih => rw [placedAfter, List.map_cons, ih]

theorem mem_placedAfter_iff {front lexemes : List Lexeme} {placed : Placed} :
    placed ∈ placedAfter front lexemes ↔ ∃ before,
      lexemes = before ++ placed.lexeme :: placed.behind ∧ placed.before = before.reverse ++ front := by
  induction lexemes generalizing front with
  | nil => simp [placedAfter]
  | cons lexeme behind ih =>
    rw [placedAfter, List.mem_cons, ih]
    constructor
    · rintro (rfl | ⟨before, rfl, hbefore⟩)
      · exact ⟨[], rfl, rfl⟩
      · exact ⟨lexeme :: before, rfl, by simp [hbefore]⟩
    · rintro ⟨before, hlexemes, hbefore⟩
      cases before with
      | nil =>
        left
        obtain ⟨rfl, rfl⟩ := List.cons.inj hlexemes
        simp only [List.reverse_nil, List.nil_append] at hbefore
        rw [← hbefore]
      | cons first before =>
        obtain ⟨rfl, rfl⟩ := List.cons.inj hlexemes
        exact .inr ⟨before, rfl, by simp [hbefore]⟩

/-- A lexeme is in its place where the lexemes are those before it, itself and those behind it. -/
theorem mem_placed_iff {lexemes : List Lexeme} {placed : Placed} :
    placed ∈ Lexeme.placed lexemes ↔
      lexemes = placed.before.reverse ++ placed.lexeme :: placed.behind := by
  rw [Lexeme.placed, mem_placedAfter_iff]
  constructor
  · rintro ⟨before, hlexemes, hbefore⟩
    rw [hbefore, List.append_nil, List.reverse_reverse]
    exact hlexemes
  · intro hlexemes
    exact ⟨placed.before.reverse, hlexemes, by simp⟩

theorem mem_of_mem_placedAfter {before lexemes : List Lexeme} {placed : Placed}
    (h : placed ∈ placedAfter before lexemes) : placed.lexeme ∈ lexemes := by
  obtain ⟨_, rfl, -⟩ := mem_placedAfter_iff.mp h
  simp

theorem mem_of_mem_around {lexemes : List Lexeme} {placed : Placed} (h : placed ∈ Lexeme.placed lexemes)
    {lexeme : Lexeme} (hlexeme : lexeme ∈ placed.before ∨ lexeme ∈ placed.behind) : lexeme ∈ lexemes := by
  rw [mem_placed_iff.mp h]
  simpa [or_left_comm] using Or.inr hlexeme

theorem placed_cases {lexemes : List Lexeme} {placed other : Placed}
    (h : placed ∈ Lexeme.placed lexemes) (h' : other ∈ Lexeme.placed lexemes) :
    placed = other ∨ placed.lexeme ∈ other.before ∨ other.lexeme ∈ placed.before := by
  obtain ⟨lexeme, before, behind⟩ := placed
  obtain ⟨lexeme', before', behind'⟩ := other
  rw [mem_placed_iff] at h h'
  rw [h] at h'
  rcases List.append_eq_append_iff.mp h' with ⟨between, hbefore, hrest⟩ | ⟨between, hbefore, hrest⟩
  · cases between with
    | nil =>
      obtain ⟨rfl, rfl⟩ := List.cons.inj hrest
      rw [List.append_nil, List.reverse_inj] at hbefore
      exact .inl (congrArg (Placed.mk lexeme · behind) hbefore.symm)
    | cons next between =>
      obtain ⟨rfl, -⟩ := List.cons.inj hrest
      right
      left
      rw [← List.mem_reverse, hbefore]
      simp
  · cases between with
    | nil =>
      obtain ⟨rfl, rfl⟩ := List.cons.inj hrest
      rw [List.append_nil, List.reverse_inj] at hbefore
      exact .inl (congrArg (Placed.mk lexeme' · behind') hbefore)
    | cons next between =>
      obtain ⟨rfl, -⟩ := List.cons.inj hrest
      right
      right
      rw [← List.mem_reverse, hbefore]
      simp

/-- Where lexemes follow one another, none stands in two places. -/
theorem placed_unique {lexemes : List Lexeme} {placed other : Placed}
    (horder : lexemes.Pairwise fun a b => a.position.offset < b.position.offset)
    (hplaced : placed ∈ Lexeme.placed lexemes) (hother : other ∈ Lexeme.placed lexemes)
    (h : placed.lexeme = other.lexeme) : placed = other := by
  have hbefore : ∀ place ∈ Lexeme.placed lexemes, place.lexeme ∉ place.before := by
    intro place hplace hmem
    rw [mem_placed_iff.mp hplace, List.pairwise_append] at horder
    have hlt := horder.2.2 _ (List.mem_reverse.mpr hmem) _ List.mem_cons_self
    exact Nat.lt_irrefl _ hlt
  rcases placed_cases hplaced hother with heq | hmem | hmem
  · exact heq
  · exact absurd (h ▸ hmem) (hbefore other hother)
  · exact absurd (h ▸ hmem) (hbefore placed hplaced)

end Phrasebook.Lexeme
