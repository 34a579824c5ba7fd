import Mathlib.Data.List.TakeWhile
import Phrasebook.Proofs.Text.Search
import Phrasebook.Text.Blank

/-!
# Trimmed and collapsed text

Trimming leaves no blank character at the ends, and collapsing none in a row either, so that both have
nothing to do the second time. Nothing but blank characters is changed, and a mark without such stands
in a collapsed text where it stood before.
-/

namespace Phrasebook.Text

/-! ## Trimming -/

/-- Only blank characters are cut off at the end. -/
theorem exists_trimEnd_append (text : Text) :
    ∃ cut : Text, text = trimEnd text ++ cut ∧ ∀ c ∈ cut, isBlank c = true := by
  refine ⟨(text.reverse.takeWhile isBlank).reverse, ?_, ?_⟩
  · rw [trimEnd, ← List.reverse_append, List.takeWhile_append_dropWhile, List.reverse_reverse]
  · intro c hc
    exact List.all_eq_true.mp List.all_takeWhile c (List.mem_reverse.mp hc)

/-- Trimming leaves a beginning without blank characters. -/
theorem prefix_trim {solid text : Text} (h : ∀ c ∈ solid, isBlank c = false)
    (hp : solid <+: text) : solid <+: trim text := by
  have hstart : trimStart text = text ∨ solid = [] := by
    cases solid with
    | nil => exact Or.inr rfl
    | cons c solid =>
      obtain ⟨behind, rfl⟩ := hp
      rw [List.cons_append, trimStart, List.dropWhile_cons_of_neg (by simp [h c])]
      exact Or.inl rfl
  rcases hstart with hstart | rfl
  · obtain ⟨cut, htext, hcut⟩ := exists_trimEnd_append text
    rw [trim, hstart]
    rcases List.prefix_or_prefix_of_prefix hp ⟨cut, htext.symm⟩ with hs | ⟨more, hmore⟩
    · exact hs
    · -- What `solid` has beyond the trimmed text is blank, so there is nothing.
      have : more = [] := by
        obtain ⟨behind, hb⟩ := hp
        rw [← hmore, List.append_assoc] at hb
        have hmc : more ++ behind = cut := List.append_cancel_left (hb.trans htext)
        rcases more with _ | ⟨c, more⟩
        · rfl
        · have solid_c := h c (by rw [← hmore]; simp)
          rw [hcut c (by rw [← hmc]; simp)] at solid_c
          cases solid_c
      rw [this, List.append_nil] at hmore
      exact hmore ▸ List.prefix_refl _
  · exact List.nil_prefix

theorem trim_of_solid {text : Text} (h : ∀ c ∈ text, isBlank c = false) : trim text = text := by
  have hp := prefix_trim h (List.prefix_refl text)
  refine (hp.eq_of_length_le ?_).symm
  have hstart : (trimStart text).length ≤ text.length := (List.dropWhile_suffix _).length_le
  obtain ⟨cut, hcut, -⟩ := exists_trimEnd_append (trimStart text)
  have := congrArg List.length hcut
  rw [List.length_append] at this
  rw [trim]
  omega

theorem getLast?_trimEnd_append {text : Text} {c : Char} (h : isBlank c = false) :
    (trimEnd (text ++ [c])).getLast? = some c := by
  rw [trimEnd, List.reverse_append, List.reverse_singleton, List.singleton_append,
    List.dropWhile_cons_of_neg (by simp [h])]
  simp

theorem trimEnd_append_blank {text : Text} {c : Char} (h : isBlank c = true) :
    trimEnd (text ++ [c]) = trimEnd text := by
  rw [trimEnd, List.reverse_append, List.reverse_singleton, List.singleton_append,
    List.dropWhile_cons_of_pos h, trimEnd]

theorem allBlank_append (front back : Text) :
    allBlank (front ++ back) = (allBlank front && allBlank back) := List.all_append

theorem trim_eq_nil_iff {text : Text} : trim text = [] ↔ allBlank text = true := by
  have hall : allBlank text = true ↔ ∀ c ∈ text, isBlank c = true := List.all_eq_true
  rw [trim, trimEnd, List.reverse_eq_nil_iff, List.dropWhile_eq_nil_iff, hall, trimStart]
  constructor
  · intro h c hc
    rw [← List.takeWhile_append_dropWhile (p := isBlank) (l := text)] at hc
    rcases List.mem_append.mp hc with hc | hc
    · exact List.mem_takeWhile_imp hc
    · exact h c (List.mem_reverse.mpr hc)
  · intro h c hc
    exact h c ((List.dropWhile_sublist _).mem (List.mem_reverse.mp hc))

theorem trimStart_of_head {text : Text} (h : ∀ c, text.head? = some c → isBlank c = false) :
    trimStart text = text := by
  cases text with
  | nil => rfl
  | cons c text => exact List.dropWhile_cons_of_neg (by simp [h c rfl])

theorem trimEnd_of_getLast {text : Text} (h : ∀ c, text.getLast? = some c → isBlank c = false) :
    trimEnd text = text := by
  have hstart : trimStart text.reverse = text.reverse :=
    trimStart_of_head fun c hc => h c (by rwa [List.head?_reverse] at hc)
  rw [trimEnd, ← trimStart, hstart, List.reverse_reverse]

theorem isBlank_of_head?_trimStart {text : Text} {c : Char} (h : (trimStart text).head? = some c) :
    isBlank c = false := by
  have hfirst := List.head?_dropWhile_not isBlank text
  rw [← trimStart, h] at hfirst
  simpa using hfirst

theorem isBlank_of_getLast?_trimEnd {text : Text} {c : Char} (h : (trimEnd text).getLast? = some c) :
    isBlank c = false := by
  rw [trimEnd, List.getLast?_reverse] at h
  exact isBlank_of_head?_trimStart h

@[simp] theorem trim_trim (text : Text) : trim (trim text) = trim text := by
  have hstart : trimStart (trim text) = trim text := by
    refine trimStart_of_head fun c hc => ?_
    obtain ⟨cut, hcut, -⟩ := exists_trimEnd_append (trimStart text)
    rw [trim] at hc
    have hhead : (trimStart text).head? = some c := by
      rw [hcut, List.head?_append, hc]
      rfl
    exact isBlank_of_head?_trimStart hhead
  rw [trim, hstart]
  exact trimEnd_of_getLast fun c hc => isBlank_of_getLast?_trimEnd hc

section

variable {c : Char} {text : Text}

/-! ## Words -/

theorem words_cons_blank (h : isBlank c = true) (text : Text) : words (c :: text) = words text := by
  rw [words.eq_def (c :: text)]
  exact if_pos h

theorem ne_nil_of_mem_words : ∀ word ∈ words text, word ≠ [] := by
  induction text with
  | nil => simp [words]
  | cons c text ih =>
    rw [words.eq_def]
    simp only
    split
    · exact ih
    · split
      · rename_i heq
        rw [heq, List.forall_mem_cons] at ih
        split
        · simpa using ih
        · simpa using ih.2
      · simpa using ih

/-! ## From the front -/

/-- What becomes of a text behind a character that is not blank: it keeps a space before its first
word. -/
def collapseBehind (text : Text) : Text :=
  if text.head?.any isBlank ∧ collapse text ≠ [] then ' ' :: collapse text else collapse text

@[simp] theorem collapse_nil : collapse [] = [] := rfl

@[simp] theorem collapseBehind_nil : collapseBehind [] = [] := rfl

theorem collapse_cons_blank (h : isBlank c = true) (text : Text) :
    collapse (c :: text) = collapse text := by
  rw [collapse, words_cons_blank h, collapse]

theorem collapse_cons_solid (h : isBlank c = false) (text : Text) :
    collapse (c :: text) = c :: collapseBehind text := by
  have hwords := @ne_nil_of_mem_words text
  unfold collapseBehind collapse
  rw [words.eq_def (c :: text)]
  simp only [h, Bool.false_eq_true, if_false]
  cases text with
  | nil => rfl
  | cons d text =>
    cases hothers : words (d :: text) with
    | nil => simp [join]
    | cons word others =>
      rw [hothers, List.forall_mem_cons] at hwords
      cases hd : isBlank d with
      | true => cases others <;> simp [join, hd, hwords.1]
      | false => cases others <;> simp [join, hd]

theorem collapseBehind_cons_solid (h : isBlank c = false) (text : Text) :
    collapseBehind (c :: text) = c :: collapseBehind text := by
  rw [collapseBehind, if_neg (by simp [h]), collapse_cons_solid h]

theorem collapseBehind_cases (text : Text) :
    collapseBehind text = collapse text ∨ collapseBehind text = ' ' :: collapse text := by
  unfold collapseBehind
  split
  · exact Or.inr rfl
  · exact Or.inl rfl

theorem collapse_eq_nil_iff : collapse text = [] ↔ allBlank text = true := by
  induction text with
  | nil => simp [allBlank]
  | cons c rest ih =>
    cases hc : isBlank c with
    | true =>
      rw [collapse_cons_blank hc, ih]
      simp [allBlank, hc]
    | false => simp [collapse_cons_solid hc, allBlank, hc]

/-- A collapsed text does not begin with a blank character. -/
theorem isBlank_of_head?_collapse (h : (collapse text).head? = some c) : isBlank c = false := by
  induction text with
  | nil => simp at h
  | cons d text ih =>
    cases hd : isBlank d with
    | true => exact ih (collapse_cons_blank hd text ▸ h)
    | false =>
      rw [collapse_cons_solid hd, List.head?_cons] at h
      cases h
      exact hd

@[simp] theorem collapse_collapse (text : Text) : collapse (collapse text) = collapse text := by
  -- The text behind a solid character comes to the same, whether or not a space is before it.
  have behind (text : Text) (ih : collapse (collapse text) = collapse text) :
      collapseBehind (collapseBehind text) = collapseBehind text := by
    have hhead : (collapse text).head?.any isBlank = false := by
      cases hfirst : (collapse text).head? with
      | none => rfl
      | some c => simpa using isBlank_of_head?_collapse hfirst
    have hspace : isBlank ' ' = true := by decide
    by_cases hspaced : text.head?.any isBlank ∧ collapse text ≠ []
    · have heq : collapseBehind text = ' ' :: collapse text := if_pos hspaced
      rw [heq, collapseBehind, collapse_cons_blank hspace, ih, if_pos ⟨by simp [hspace], hspaced.2⟩]
    · have heq : collapseBehind text = collapse text := if_neg hspaced
      rw [heq, collapseBehind, ih, if_neg (by simp [hhead])]
  induction text with
  | nil => rfl
  | cons c text ih =>
    cases hc : isBlank c with
    | true => rw [collapse_cons_blank hc, ih]
    | false => rw [collapse_cons_solid hc, collapse_cons_solid hc, behind text ih]

theorem allBlank_collapse (text : Text) : allBlank (collapse text) = allBlank text := by
  rw [Bool.eq_iff_iff, ← collapse_eq_nil_iff, ← collapse_eq_nil_iff, collapse_collapse]

/-! ## What stays -/

/-- The characters that are not blank. -/
def solids (text : Text) : Text := text.filter fun c => !isBlank c

theorem solids_collapseBehind_of (h : solids (collapse text) = solids text) :
    solids (collapseBehind text) = solids text := by
  rcases collapseBehind_cases text with heq | heq
  · rw [heq, h]
  · have hspace : isBlank ' ' = true := by decide
    rw [heq, solids, List.filter_cons_of_neg (by simp [hspace]), ← solids, h]

@[simp] theorem solids_collapse (text : Text) : solids (collapse text) = solids text := by
  induction text with
  | nil => rfl
  | cons c text ih =>
    cases hc : isBlank c with
    | true => rw [collapse_cons_blank hc, ih, solids, solids, List.filter_cons_of_neg (by simp [hc])]
    | false =>
      have hbehind := solids_collapseBehind_of ih
      simp only [solids] at hbehind ⊢
      rw [collapse_cons_solid hc, List.filter_cons_of_pos (by simp [hc]),
        List.filter_cons_of_pos (by simp [hc]), hbehind]

@[simp] theorem solids_collapseBehind (text : Text) : solids (collapseBehind text) = solids text :=
  solids_collapseBehind_of (solids_collapse text)

/-! ## Marks -/

variable {mark : Text}

theorem collapseBehind_append (h : ∀ c ∈ mark, isBlank c = false) (text : Text) :
    collapseBehind (mark ++ text) = mark ++ collapseBehind text := by
  induction mark with
  | nil => rfl
  | cons c mark ih =>
    rw [List.forall_mem_cons] at h
    rw [List.cons_append, collapseBehind_cons_solid h.1, ih h.2, List.cons_append]

theorem collapse_append (hne : mark ≠ []) (h : ∀ c ∈ mark, isBlank c = false) (text : Text) :
    collapse (mark ++ text) = mark ++ collapseBehind text := by
  obtain ⟨c, mark, rfl⟩ := List.exists_cons_of_ne_nil hne
  rw [List.forall_mem_cons] at h
  rw [List.cons_append, collapse_cons_solid h.1, collapseBehind_append h.2, List.cons_append]

theorem begins_cons_blank (hne : mark ≠ []) (h : ∀ c ∈ mark, isBlank c = false) {d : Char}
    (hd : isBlank d = true) (text : Text) : begins mark (d :: text) = false := by
  obtain ⟨c, mark, rfl⟩ := List.exists_cons_of_ne_nil hne
  rw [List.forall_mem_cons] at h
  have hcd : c ≠ d := by
    rintro rfl
    rw [h.1] at hd
    cases hd
  simp [begins, after?, hcd]

/-- A mark begins a text behind a solid character exactly if it begins what becomes of it. -/
theorem begins_collapseBehind (h : ∀ c ∈ mark, isBlank c = false) (text : Text) :
    begins mark (collapseBehind text) = begins mark text := by
  rw [Bool.eq_iff_iff, begins_iff, begins_iff]
  induction mark generalizing text with
  | nil => simp
  | cons c mark ih =>
    have hmark := h
    rw [List.forall_mem_cons] at h
    cases text with
    | nil => simp
    | cons d text =>
      cases hd : isBlank d with
      | false =>
        rw [collapseBehind_cons_solid hd, List.cons_prefix_cons, List.cons_prefix_cons, ih h.2]
      | true =>
        have hnot := begins_cons_blank (List.cons_ne_nil c mark) hmark hd text
        rw [Bool.eq_false_iff, ne_eq, begins_iff] at hnot
        refine iff_of_false ?_ hnot
        unfold collapseBehind
        split
        · have hspaced := begins_cons_blank (List.cons_ne_nil c mark) hmark (d := ' ') (by decide)
            (collapse (d :: text))
          rwa [Bool.eq_false_iff, ne_eq, begins_iff] at hspaced
        · rename_i hnone
          have hnil : collapse (d :: text) = [] := by simpa [hd] using hnone
          simp [hnil]

/-- What stands before a mark is respaced and still ends at it. -/
theorem exists_collapse_before (hne : mark ≠ []) (h : ∀ c ∈ mark, isBlank c = false) (behind : Text)
    {content : Text} (ends : EndsAt mark content) :
    (∃ inside, collapseBehind (content ++ (mark ++ behind)) = inside ++ (mark ++ collapseBehind behind) ∧
        EndsAt mark inside) ∧
      ∃ inside, collapse (content ++ (mark ++ behind)) = inside ++ (mark ++ collapseBehind behind) ∧
        EndsAt mark inside := by
  induction content with
  | nil =>
    exact ⟨⟨[], collapseBehind_append h behind, noneInside_nil _ _⟩,
      ⟨[], collapse_append hne h behind, noneInside_nil _ _⟩⟩
  | cons c content ih =>
    obtain ⟨hfirst, hcontent⟩ := noneInside_cons.mp ends
    obtain ⟨⟨spaced, hspaced, hspacedEnds⟩, ⟨inside, hinside, hinsideEnds⟩⟩ := ih hcontent
    cases hc : isBlank c with
    | true =>
      have hcollapse : collapse (c :: content ++ (mark ++ behind)) =
          inside ++ (mark ++ collapseBehind behind) := by
        rw [List.cons_append, collapse_cons_blank hc, hinside]
      refine ⟨⟨' ' :: inside, ?_, ?_⟩, ⟨inside, hcollapse, hinsideEnds⟩⟩
      · have hfilled : inside ++ (mark ++ collapseBehind behind) ≠ [] := by simp [hne]
        rw [collapseBehind, hcollapse, if_pos ⟨by simp [hc], hfilled⟩, List.cons_append]
      · exact noneInside_cons.mpr ⟨begins_cons_blank hne h (by decide) _, hinsideEnds⟩
    | false =>
      have hbehind : collapseBehind (c :: content ++ (mark ++ behind)) =
          c :: spaced ++ (mark ++ collapseBehind behind) := by
        rw [List.cons_append, collapseBehind_cons_solid hc, hspaced, List.cons_append]
      have hends : EndsAt mark (c :: spaced) := by
        refine noneInside_cons.mpr ⟨?_, hspacedEnds⟩
        have cut (front back : Text) :
            begins mark (front ++ (mark ++ back)) = begins mark (front ++ mark) := by
          rw [← List.append_assoc, begins_append (by simp)]
        have hsame := begins_collapseBehind h (c :: content ++ (mark ++ behind))
        rw [hbehind, cut, cut] at hsame
        exact hsame.trans hfirst
      refine ⟨⟨c :: spaced, hbehind, hends⟩, ⟨c :: spaced, ?_, hends⟩⟩
      rw [List.cons_append, collapse_cons_solid hc, hspaced, List.cons_append]

end

end Phrasebook.Text
