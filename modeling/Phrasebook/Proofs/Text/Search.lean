import Mathlib.Algebra.GroupWithZero.Nat
import Phrasebook.Text.Search

/-!
# The first occurrence of a mark

A search stops at the first place that it looks for. Whether a mark begins somewhere is decided by as
many characters as the mark has, so that what is found does not depend on the text behind it. The
pieces between separators make up the text, and each is cut off by what stands next to it.
-/

namespace Phrasebook.Text

/-! ## Places -/

/-- Of a text `before ++ after`, no rest that begins inside `before` is one that `found` holds of. -/
def NoneInside (found : Text → Bool) (before after : Text) : Prop :=
  ∀ left right, before = left ++ right → right ≠ [] → found (right ++ after) = false

theorem noneInside_nil (found : Text → Bool) (after : Text) : NoneInside found [] after := by
  intro left right h hne
  exact absurd (List.append_eq_nil_iff.mp h.symm).2 hne

theorem noneInside_cons {found : Text → Bool} {c : Char} {before after : Text} :
    NoneInside found (c :: before) after ↔
      found (c :: (before ++ after)) = false ∧ NoneInside found before after := by
  constructor
  · intro h
    refine ⟨h [] (c :: before) rfl (by simp), ?_⟩
    intro left right hb hne
    exact h (c :: left) right (by rw [hb]; rfl) hne
  · rintro ⟨hc, h⟩ left right hb hne
    cases left with
    | nil => rw [← show c :: before = right from hb]; exact hc
    | cons d left =>
      rw [List.cons_append, List.cons.injEq] at hb
      exact h left right hb.2 hne

theorem breakWhere?_eq_some_iff {found : Text → Bool} {text before after : Text} :
    breakWhere? found text = some (before, after) ↔
      text = before ++ after ∧ found after = true ∧ NoneInside found before after := by
  induction text generalizing before with
  | nil =>
    simp only [breakWhere?]
    constructor
    · intro h
      split at h
      · cases h
        exact ⟨rfl, ‹_›, noneInside_nil _ _⟩
      · cases h
    · rintro ⟨h, hf, -⟩
      obtain ⟨rfl, rfl⟩ := List.append_eq_nil_iff.mp h.symm
      rw [if_pos hf]
  | cons c rest ih =>
    simp only [breakWhere?]
    by_cases hc : found (c :: rest) = true
    · rw [if_pos hc]
      constructor
      · intro h
        cases h
        exact ⟨rfl, hc, noneInside_nil _ _⟩
      · rintro ⟨h, -, hn⟩
        cases before with
        | nil => rw [List.nil_append] at h; rw [h]
        | cons d before =>
          rw [List.cons_append, List.cons.injEq] at h
          obtain ⟨rfl, rfl⟩ := h
          rw [(noneInside_cons.mp hn).1] at hc
          cases hc
    · rw [if_neg hc, Option.map_eq_some_iff]
      constructor
      · rintro ⟨⟨b, a⟩, hb, heq⟩
        simp only [Prod.mk.injEq] at heq
        obtain ⟨rfl, rfl⟩ := heq
        obtain ⟨hrest, hf, hn⟩ := ih.mp hb
        refine ⟨by rw [hrest]; rfl, hf, noneInside_cons.mpr ⟨?_, hn⟩⟩
        rw [← hrest]
        simpa using hc
      · rintro ⟨h, hf, hn⟩
        cases before with
        | nil =>
          rw [List.nil_append] at h
          rw [h] at hc
          exact absurd hf hc
        | cons d before =>
          rw [List.cons_append, List.cons.injEq] at h
          obtain ⟨rfl, hrest⟩ := h
          exact ⟨(before, after), ih.mpr ⟨hrest, hf, (noneInside_cons.mp hn).2⟩, rfl⟩

theorem breakWhere?_eq_none_iff {found : Text → Bool} {text : Text} :
    breakWhere? found text = none ↔ found [] = false ∧ NoneInside found text [] := by
  induction text with
  | nil => simp [breakWhere?, noneInside_nil]
  | cons c rest ih =>
    rw [noneInside_cons, List.append_nil]
    simp only [breakWhere?]
    by_cases hc : found (c :: rest) = true
    · simp [hc]
    · rw [if_neg hc, Option.map_eq_none_iff, ih]
      simp [hc]

/-! ## Marks -/

theorem begins_iff {mark text : Text} : begins mark text = true ↔ mark <+: text := by
  rw [begins, Option.isSome_iff_exists]
  constructor
  · rintro ⟨rest, h⟩
    exact ⟨rest, (after?_eq_some.mp h).symm⟩
  · rintro ⟨rest, h⟩
    exact ⟨rest, after?_eq_some.mpr h.symm⟩

theorem begins_append {mark text : Text} (h : mark.length ≤ text.length) (behind : Text) :
    begins mark (text ++ behind) = begins mark text := by
  rw [Bool.eq_iff_iff, begins_iff, begins_iff]
  constructor
  · intro hp
    exact List.prefix_of_prefix_length_le hp (List.prefix_append text behind) h
  · intro hp
    exact hp.trans (List.prefix_append text behind)

theorem beginsNoCase_append {mark text : Text} (h : mark.length ≤ text.length) (behind : Text) :
    beginsNoCase mark (text ++ behind) = beginsNoCase mark text := by
  rw [beginsNoCase, List.take_append_of_le_length h, beginsNoCase]

/-- What stands behind a mark does not make it begin earlier. -/
theorem noneInside_append {found : Text → Bool} {before mark : Text}
    (bounded : ∀ text behind : Text, mark.length ≤ text.length →
      found (text ++ behind) = found text) (behind : Text) :
    NoneInside found before (mark ++ behind) ↔ NoneInside found before mark := by
  have same : ∀ right : Text, found (right ++ (mark ++ behind)) = found (right ++ mark) := by
    intro right
    rw [← List.append_assoc]
    exact bounded _ _ (by simp)
  unfold NoneInside
  simp only [same]

/-- The mark occurs first behind `content`, whatever follows it. -/
def EndsAt (mark content : Text) : Prop := NoneInside (begins mark) content mark

theorem split?_eq_some_iff {mark text before after : Text} :
    split? mark text = some (before, after) ↔
      text = before ++ mark ++ after ∧ EndsAt mark before := by
  rw [split?, Option.map_eq_some_iff]
  have drop_mark : ∀ {rest : Text}, begins mark rest = true →
      rest = mark ++ rest.drop mark.length := by
    intro rest h
    obtain ⟨behind, rfl⟩ := begins_iff.mp h
    rw [List.drop_left]
  have unmoved : ∀ behind, NoneInside (begins mark) before (mark ++ behind) ↔ EndsAt mark before :=
    noneInside_append fun text behind h => begins_append h behind
  constructor
  · rintro ⟨⟨b, rest⟩, hb, heq⟩
    simp only [Prod.mk.injEq] at heq
    obtain ⟨rfl, rfl⟩ := heq
    obtain ⟨htext, hf, hn⟩ := breakWhere?_eq_some_iff.mp hb
    rw [drop_mark hf, unmoved] at hn
    refine ⟨?_, hn⟩
    rw [List.append_assoc, ← drop_mark hf, htext]
  · rintro ⟨htext, hn⟩
    refine ⟨(before, mark ++ after), ?_, by simp⟩
    rw [breakWhere?_eq_some_iff, htext, List.append_assoc]
    exact ⟨rfl, begins_iff.mpr (List.prefix_append _ _), (unmoved after).mpr hn⟩

theorem split?_eq_none_iff {mark text : Text} : split? mark text = none ↔ ¬ mark <:+: text := by
  rw [split?, Option.map_eq_none_iff, breakWhere?_eq_none_iff]
  constructor
  · rintro ⟨hnil, hnone⟩ ⟨left, right, rfl⟩
    rw [Bool.eq_false_iff, ne_eq, begins_iff] at hnil
    have hmark : mark ++ right ≠ [] := by
      rintro heq
      exact hnil ((List.append_eq_nil_iff.mp heq).1 ▸ List.nil_prefix)
    have hbegins := hnone left (mark ++ right) (List.append_assoc ..) hmark
    rw [List.append_nil, Bool.eq_false_iff, ne_eq, begins_iff] at hbegins
    exact hbegins (List.prefix_append mark right)
  · intro h
    refine ⟨?_, fun left right htext _ => ?_⟩
    · rw [Bool.eq_false_iff, ne_eq, begins_iff]
      exact fun hmark => h (hmark.trans List.nil_prefix).isInfix
    · rw [List.append_nil, Bool.eq_false_iff, ne_eq, begins_iff]
      exact fun hmark => h (hmark.isInfix.trans ⟨left, [], by rw [htext, List.append_nil]⟩)

/-- A mark of one character ends a text at its first occurrence. -/
theorem endsAt_singleton {c : Char} {content : Text} : EndsAt [c] content ↔ c ∉ content := by
  induction content with
  | nil => simp [EndsAt, noneInside_nil]
  | cons d content ih =>
    unfold EndsAt at ih ⊢
    rw [noneInside_cons, ih, List.mem_cons, not_or]
    simp [begins, after?]

/-! ## Pieces -/

section

variable {c : Char} {text : Text}

theorem pieces_ne_nil (c : Char) (text : Text) : pieces c text ≠ [] := by
  cases text with
  | nil => simp [pieces]
  | cons d text =>
    unfold pieces
    split
    · simp
    · split <;> simp

theorem pieces_cons_self (c : Char) (text : Text) : pieces c (c :: text) = [] :: pieces c text := by
  simp [pieces]

theorem pieces_cons_of_ne {d : Char} (h : d ≠ c) {piece : Text} {others : List Text}
    (hp : pieces c text = piece :: others) : pieces c (d :: text) = (d :: piece) :: others := by
  simp [pieces, h, hp]

theorem pieces_of_not_mem (h : c ∉ text) : pieces c text = [text] := by
  induction text with
  | nil => rfl
  | cons d text ih =>
    rw [List.mem_cons, not_or] at h
    exact pieces_cons_of_ne (Ne.symm h.1) (ih h.2)

/-- A separator cuts a text into the pieces before it and those behind it. -/
theorem pieces_append (c : Char) (a b : Text) :
    pieces c (a ++ c :: b) = pieces c a ++ pieces c b := by
  induction a with
  | nil => exact pieces_cons_self c b
  | cons d a ih =>
    rw [List.cons_append]
    by_cases h : d = c
    · rw [h, pieces_cons_self, pieces_cons_self, ih]
      rfl
    · obtain ⟨piece, others, hp⟩ := List.exists_cons_of_ne_nil (pieces_ne_nil c a)
      rw [hp, List.cons_append] at ih
      rw [pieces_cons_of_ne h hp, pieces_cons_of_ne h ih]
      rfl

/-- The last piece goes to the end of the text. -/
theorem exists_pieces_append_singleton {d : Char} (h : d ≠ c) (text : Text) :
    ∃ outer last, pieces c (text ++ [d]) = outer ++ [last ++ [d]] := by
  induction text with
  | nil => exact ⟨[], [], pieces_cons_of_ne h rfl⟩
  | cons e text ih =>
    obtain ⟨outer, last, hp⟩ := ih
    by_cases he : e = c
    · exact ⟨[] :: outer, last, by rw [he, List.cons_append, pieces_cons_self, hp]; rfl⟩
    · cases outer with
      | nil => exact ⟨[], e :: last, pieces_cons_of_ne he hp⟩
      | cons first outer => exact ⟨(e :: first) :: outer, last, pieces_cons_of_ne he hp⟩

/-- The pieces are made of the characters that are no separators. -/
theorem flatten_pieces (c : Char) (text : Text) :
    (pieces c text).flatten = text.filter fun d => d ≠ c := by
  induction text with
  | nil => rfl
  | cons d text ih =>
    by_cases h : d = c
    · rw [h, pieces_cons_self, List.flatten_cons, ih]
      simp
    · obtain ⟨piece, others, hp⟩ := List.exists_cons_of_ne_nil (pieces_ne_nil c text)
      rw [hp] at ih
      rw [pieces_cons_of_ne h hp, List.filter_cons_of_pos (by simpa using h), ← ih]
      rfl

theorem mem_of_mem_pieces {piece : Text} {d : Char} (hpiece : piece ∈ pieces c text) (h : d ∈ piece) :
    d ∈ text := by
  have hin := List.mem_flatten_of_mem hpiece h
  rw [flatten_pieces] at hin
  exact (List.mem_filter.mp hin).1

theorem not_mem_of_mem_pieces {piece : Text} (hpiece : piece ∈ pieces c text) : c ∉ piece := by
  intro h
  have hin := List.mem_flatten_of_mem hpiece h
  rw [flatten_pieces] at hin
  simp at hin

theorem exists_mem_pieces {d : Char} (hne : d ≠ c) (h : d ∈ text) : ∃ piece ∈ pieces c text, d ∈ piece := by
  have hin : d ∈ (pieces c text).flatten := by
    rw [flatten_pieces]
    exact List.mem_filter.mpr ⟨h, by simpa using hne⟩
  exact List.mem_flatten.mp hin

theorem sum_byteLength_pieces (text : Text) :
    ((pieces '/' text).map fun piece => byteLength piece + 1).sum = byteLength text + 1 := by
  induction text with
  | nil => rfl
  | cons d text ih =>
    by_cases h : d = '/'
    · have hsize : '/'.utf8Size = 1 := by decide
      rw [h, pieces_cons_self, List.map_cons, List.sum_cons, ih, byteLength_cons, hsize]
      simp [Nat.add_comm]
    · obtain ⟨piece, others, hp⟩ := List.exists_cons_of_ne_nil (pieces_ne_nil '/' text)
      rw [hp, List.map_cons, List.sum_cons] at ih
      rw [pieces_cons_of_ne h hp, List.map_cons, List.sum_cons, byteLength_cons, byteLength_cons]
      omega

theorem join_cons_cons (separator first second : Text) (others : List Text) :
    join separator (first :: second :: others) =
      first ++ (separator ++ join separator (second :: others)) := by
  simp [join]

theorem pieces_join {texts : List Text} (hne : texts ≠ []) (h : ∀ text ∈ texts, c ∉ text) :
    pieces c (join [c] texts) = texts := by
  induction texts with
  | nil => exact absurd rfl hne
  | cons first others ih =>
    obtain ⟨hfirst, hothers⟩ := List.forall_mem_cons.mp h
    cases others with
    | nil => simp [join, pieces_of_not_mem hfirst]
    | cons second others =>
      rw [join_cons_cons, List.singleton_append, pieces_append, ih (by simp) hothers, pieces_of_not_mem hfirst]
      rfl

end

end Phrasebook.Text
