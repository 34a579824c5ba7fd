import Phrasebook.Proofs.Path.Parents

/-!
# Stripped paths

What is left of a path below another has the components that the other one lacks. A path that was joined
gives back what it was joined with.
-/

namespace Phrasebook.Path

section

variable {root path leading : Text} {a b names : List Text}

/-! ## Segments -/

theorem dropWhile_fillers_append (h : ∀ segment ∈ a, isFiller segment = true) :
    (a ++ b).dropWhile isFiller = b.dropWhile isFiller := by
  induction a with
  | nil => rfl
  | cons segment a ih =>
    obtain ⟨hfirst, hothers⟩ := List.forall_mem_cons.mp h
    rw [List.cons_append, List.dropWhile_cons_of_pos hfirst, ih hothers]

theorem filterMap_dropFillersAtEnd (all : List Text) :
    (dropFillersAtEnd all).filterMap (component? false) = all.filterMap (component? false) := by
  obtain ⟨fillers, hall, hfillers⟩ := exists_fillers all
  conv_rhs => rw [hall]
  rw [List.filterMap_append, filterMap_component?_fillers hfillers, List.append_nil]

theorem filterMap_dropWhile (all : List Text) :
    (all.dropWhile isFiller).filterMap (component? false) = all.filterMap (component? false) := by
  have hfront : (all.takeWhile isFiller).filterMap (component? false) = [] :=
    filterMap_component?_fillers fun segment hin => List.mem_takeWhile_imp hin
  conv_rhs => rw [← List.takeWhile_append_dropWhile (p := isFiller) (l := all)]
  rw [List.filterMap_append, hfront, List.nil_append]

/-- The segments that a stretch of components takes up can be followed by fillers. -/
theorem exists_behind?_eq (a b : List Text) :
    ∃ fillers, (∀ segment ∈ fillers, isFiller segment = true) ∧
      behind? (a.filterMap (component? false)) (a ++ b) = some (fillers ++ b) := by
  induction a with
  | nil => exact ⟨[], by simp, by simp [behind?]⟩
  | cons segment a ih =>
    obtain ⟨fillers, hfillers, ih⟩ := ih
    rcases component?_cases segment with ⟨hfiller, heq⟩ | ⟨-, heq⟩ | ⟨-, -, heq⟩
    · rw [List.filterMap_cons_none heq, List.cons_append]
      cases hrest : a.filterMap (component? false) with
      | nil =>
        have hall := isFiller_of_filterMap_eq_nil hrest
        exact ⟨segment :: a, List.forall_mem_cons.mpr ⟨hfiller, hall⟩, rfl⟩
      | cons c rest =>
        rw [hrest] at ih
        exact ⟨fillers, hfillers, by rw [behind?, heq]; exact ih⟩
    · exact ⟨fillers, hfillers, by rw [List.filterMap_cons_some heq, List.cons_append, behind?, heq]; simpa⟩
    · exact ⟨fillers, hfillers, by rw [List.filterMap_cons_some heq, List.cons_append, behind?, heq]; simpa⟩

/-! ## What is left -/

theorem exists_component?_true (segment : Text) : ∃ c, component? true segment = some c := by
  unfold component?
  split
  · exact ⟨_, rfl⟩
  split
  · exact ⟨_, rfl⟩
  split
  · exact ⟨_, rfl⟩
  · exact ⟨_, rfl⟩

theorem component?_true_of_not_filler {segment : Text} (h : isFiller segment = false) :
    component? true segment = component? false segment := by
  simp only [isFiller, Bool.or_eq_false_iff, decide_eq_false_iff_not] at h
  unfold component?
  rw [if_neg h.1, if_neg h.2, if_neg h.1, if_neg h.2]

/-- The path without the segments that make up the components of `root`, and without the fillers around
what is left. -/
theorem strip?_of_segments (hne : path ≠ []) (hpath : segments path = leading :: (a ++ b))
    (hroot : components root = (component? true leading).toList ++ a.filterMap (component? false)) :
    strip? root path = some (ofSegments (dropFillersAtEnd (b.dropWhile isFiller))) := by
  obtain ⟨c, hc⟩ := exists_component?_true leading
  obtain ⟨fillers, hfillers, hbehind⟩ := exists_behind?_eq a b
  rw [hc, Option.toList_some, List.singleton_append] at hroot
  unfold strip?
  rw [hroot, hpath]
  simp only [hc, hne, ne_eq, not_false_eq_true, and_self, if_true, hbehind, Option.map_some,
    dropWhile_fillers_append hfillers]

theorem strip?_nil (hpath : segments path = leading :: b) :
    strip? [] path = some (ofSegments (leading :: dropFillersAtEnd b)) := by
  unfold strip?
  rw [hpath]
  rfl

theorem components_ofSegments (hslash : ∀ segment ∈ names, '/' ∉ segment)
    (hfirst : ∀ segment, names.head? = some segment → isFiller segment = false) :
    components (ofSegments names) = names.filterMap (component? false) := by
  cases names with
  | nil => rfl
  | cons first others =>
    have hsegments : segments (ofSegments (first :: others)) = first :: others :=
      Text.pieces_join (by simp) hslash
    have hfiller := hfirst first rfl
    have hne : ofSegments (first :: others) ≠ [] := by
      intro hnil
      rw [hnil] at hsegments
      cases hsegments
      cases hfiller
    rw [components_of_segments hne hsegments, component?_true_of_not_filler hfiller, List.filterMap_cons]
    cases component? false first <;> rfl

theorem mem_of_mem_dropFillersAtEnd {segment : Text} {all : List Text}
    (h : segment ∈ dropFillersAtEnd all) : segment ∈ all := by
  obtain ⟨fillers, hall, -⟩ := exists_fillers all
  rw [hall]
  exact List.mem_append_left _ h

/-- Of the empty root all of a file is left. -/
theorem exists_strip?_nil (hfile : (fileName? path).isSome = true) :
    ∃ left, strip? [] path = some left ∧ components path = components left := by
  have hne : path ≠ [] := by
    rintro rfl
    cases hfile
  obtain ⟨leading, others, hpath⟩ := exists_segments path
  have hcomponents := components_of_segments hne hpath
  refine ⟨_, strip?_nil hpath, ?_⟩
  have hsegments : segments (ofSegments (leading :: dropFillersAtEnd others)) =
      leading :: dropFillersAtEnd others := by
    refine Text.pieces_join (by simp) fun segment hin => ?_
    refine Text.not_mem_of_mem_pieces (?_ : segment ∈ segments path)
    rw [hpath]
    exact List.cons_subset_cons leading (fun _ => mem_of_mem_dropFillersAtEnd) hin
  have hleft : ofSegments (leading :: dropFillersAtEnd others) ≠ [] := by
    -- Nothing is left of the topmost directory alone, and that is no file.
    intro hnil
    rw [hnil] at hsegments
    obtain ⟨rfl, hfillers⟩ := List.cons.inj hsegments
    rw [← filterMap_dropFillersAtEnd, ← hfillers] at hcomponents
    rw [fileName?, hcomponents] at hfile
    cases hfile
  rw [components_of_segments hleft hsegments, filterMap_dropFillersAtEnd, hcomponents]

/-- Of another root what its components leave is left. -/
theorem exists_strip?_of_prefix (hroot : root ≠ []) (hne : path ≠ [])
    (hbelow : components root <+: components path) :
    ∃ left, strip? root path = some left ∧ components path = components root ++ components left := by
  obtain ⟨leading, others, hpath⟩ := exists_segments path
  obtain ⟨first, inner, hsegments⟩ := exists_segments root
  obtain ⟨c, hc⟩ := exists_component?_true first
  obtain ⟨d, hd⟩ := exists_component?_true leading
  have hcomponents := components_of_segments hne hpath
  have hrootComponents := components_of_segments hroot hsegments
  rw [hrootComponents, hcomponents, hc, hd, Option.toList_some, Option.toList_some,
    List.singleton_append, List.singleton_append, List.cons_prefix_cons] at hbelow
  obtain ⟨rfl, below, hinner⟩ := hbelow
  obtain ⟨a, b, rfl, ha, -⟩ := List.filterMap_eq_append_iff.mp hinner.symm
  have hstart : components root = (component? true leading).toList ++ a.filterMap (component? false) := by
    rw [hrootComponents, hc, hd, ha]
  refine ⟨_, strip?_of_segments hne hpath hstart, ?_⟩
  rw [components_ofSegments, filterMap_dropFillersAtEnd, filterMap_dropWhile, hcomponents, hstart,
    List.filterMap_append, List.append_assoc]
  · intro segment hin
    have hmem := (List.dropWhile_sublist _).mem (mem_of_mem_dropFillersAtEnd hin)
    refine Text.not_mem_of_mem_pieces (?_ : segment ∈ segments path)
    rw [hpath]
    exact List.mem_cons_of_mem _ (List.mem_append_right _ hmem)
  · intro segment hhead
    obtain ⟨fillers, hall, -⟩ := exists_fillers (b.dropWhile isFiller)
    have hnot := List.head?_dropWhile_not isFiller b
    rw [hall, List.head?_append, hhead] at hnot
    simpa using hnot

/-- A file below `root` is what `root` leads to and what is left of it. -/
theorem exists_strip? (hbelow : startsWith path root = true) (hfile : (fileName? path).isSome = true) :
    ∃ left, strip? root path = some left ∧ components path = components root ++ components left := by
  by_cases hroot : root = []
  · rw [hroot]
    exact exists_strip?_nil hfile
  · refine exists_strip?_of_prefix hroot ?_ (List.isPrefixOf_iff_prefix.mp hbelow)
    rintro rfl
    cases hfile

theorem dropFillersAtEnd_names (h : ∀ name ∈ names, isName name = true) : dropFillersAtEnd names = names := by
  have hnone : names.reverse.dropWhile isFiller = names.reverse := by
    cases hreverse : names.reverse with
    | nil => rfl
    | cons last others =>
      have hlast := h last (List.mem_reverse.mp (hreverse ▸ List.mem_cons_self))
      rw [List.dropWhile_cons_of_neg (by simp [(isName_iff.mp hlast).1])]
  rw [dropFillersAtEnd, hnone, List.reverse_reverse]

/-- What was joined to `root` is left below it. -/
theorem strip?_join (root : Text) (hne : names ≠ []) (h : ∀ name ∈ names, isName name = true) :
    strip? root (join root (ofSegments names)) = some (ofSegments names) := by
  have hsegments := segments_ofSegments hne h
  have hrelative := isAbsolute_ofSegments h
  obtain ⟨first, others, rfl⟩ := List.exists_cons_of_ne_nil hne
  obtain ⟨hfirst, hothers⟩ := List.forall_mem_cons.mp h
  by_cases hroot : root = []
  · have hjoin : join root (ofSegments (first :: others)) = ofSegments (first :: others) := by
      rw [join, if_neg (by simp [hrelative]), if_pos (Or.inl hroot), hroot, List.nil_append]
    rw [hjoin, hroot, strip?_nil hsegments, dropFillersAtEnd_names hothers]
  · obtain ⟨front, hfront, hjoin, hrootSegments⟩ := exists_segments_join hroot hrelative
    obtain ⟨leading, a, rfl⟩ := List.exists_cons_of_ne_nil hfront
    rw [hsegments] at hjoin
    rw [strip?_of_segments (join_ne_nil hroot _) hjoin (components_of_front hroot hrootSegments),
      List.dropWhile_cons_of_neg (by simp [(isName_iff.mp hfirst).1]), dropFillersAtEnd_names h]

/-- A character that no name has is not in the path. -/
theorem not_mem_of_components {c : Char} (hslash : c ≠ '/') (hdot : c ≠ '.')
    (h : ∀ name, .name name ∈ components path → c ∉ name) : c ∉ path := by
  intro hin
  have hne : path ≠ [] := List.ne_nil_of_mem hin
  obtain ⟨segment, hsegment, hc⟩ := Text.exists_mem_pieces hslash hin
  have hname (leading : Bool) : component? leading segment = some (.name segment) := by
    have hsegmentNe : segment ≠ [] ∧ segment ≠ "." ∧ segment ≠ ".." := by
      refine ⟨?_, ?_, ?_⟩ <;> rintro rfl <;> simp [hdot] at hc
    unfold component?
    rw [if_neg hsegmentNe.1, if_neg hsegmentNe.2.1, if_neg hsegmentNe.2.2]
  obtain ⟨leading, others, hpath⟩ := exists_segments path
  have hmem : segment ∈ leading :: others := hpath ▸ hsegment
  refine h segment ?_ hc
  rw [components_of_segments hne hpath, List.mem_append]
  rcases List.mem_cons.mp hmem with rfl | hmem
  · exact Or.inl (by rw [hname]; exact List.mem_singleton.mpr rfl)
  · exact Or.inr (List.mem_filterMap.mpr ⟨segment, hmem, hname false⟩)

end

end Phrasebook.Path
