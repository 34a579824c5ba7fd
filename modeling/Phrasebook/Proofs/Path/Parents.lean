import Mathlib.Data.List.TakeWhile
import Phrasebook.Proofs.Path

/-!
# Paths without their last components

Taking the last component away leaves a front of the path, and with it one component less. So the
parents of a path are its parents by text: a way up is taken away like a name, and leaves what it was
to lead up from.
-/

namespace Phrasebook.Path

/-- The names at the end of a path, behind its last way up. -/
def namesAtEnd (path : Text) : Nat := ((behind path).reverse.takeWhile (· ≠ .parent)).length

/-- A path is what another leaves when its last component is taken away. -/
structure IsOuter (outer path : Text) : Prop where
  front : outer <+: path
  shorter : outer.length < path.length
  behind_eq : behind outer = (behind path).dropLast
  isAbsolute_eq : isAbsolute outer = isAbsolute path
  segments_eq : outer = [] ∨ outer = "/" ∨ ∃ more, more ≠ [] ∧ segments path = segments outer ++ more

section

variable {path outer : Text} {all more : List Text} {count : Nat}

/-! ## Segments -/

theorem ofSegments_append (hall : all ≠ []) (hmore : more ≠ []) :
    ofSegments (all ++ more) = ofSegments all ++ "/" ++ ofSegments more := by
  obtain ⟨next, later, rfl⟩ := List.exists_cons_of_ne_nil hmore
  induction all with
  | nil => exact absurd rfl hall
  | cons first others ih =>
    cases others with
    | nil => simp [ofSegments, Text.join]
    | cons second others =>
      have hjoin := ih (by simp)
      unfold ofSegments at hjoin ⊢
      rw [List.cons_append, List.cons_append, Text.join_cons_cons, Text.join_cons_cons,
        ← List.cons_append, hjoin]
      simp only [List.append_assoc]

theorem ofSegments_segments (path : Text) : ofSegments (segments path) = path := by
  induction path with
  | nil => rfl
  | cons c path ih =>
    obtain ⟨first, others, hs⟩ := exists_segments path
    have hs' : segments path ≠ [] := Text.pieces_ne_nil '/' path
    by_cases hslash : c = '/'
    · have hcut : segments (c :: path) = [[]] ++ segments path := by
        rw [hslash]
        exact Text.pieces_cons_self '/' path
      rw [hcut, ofSegments_append (by simp) hs', ih, hslash]
      rfl
    · have hcons : segments (c :: path) = (c :: first) :: others := Text.pieces_cons_of_ne hslash hs
      rw [hs] at ih
      rw [hcons]
      cases others with
      | nil => simpa [ofSegments, Text.join] using ih
      | cons second others =>
        unfold ofSegments at ih ⊢
        rw [Text.join_cons_cons] at ih ⊢
        rw [List.cons_append, ih]

theorem eq_of_segments (hmore : more ≠ []) (h : segments path = segments outer ++ more) :
    path = outer ++ "/" ++ ofSegments more := by
  have houter : segments outer ≠ [] := Text.pieces_ne_nil '/' outer
  rw [← ofSegments_segments path, h, ofSegments_append houter hmore, ofSegments_segments]

theorem exists_fillers (all : List Text) : ∃ fillers, all = dropFillersAtEnd all ++ fillers ∧
    ∀ segment ∈ fillers, isFiller segment = true := by
  refine ⟨(all.reverse.takeWhile isFiller).reverse, ?_, ?_⟩
  · rw [dropFillersAtEnd, ← List.reverse_append, List.takeWhile_append_dropWhile, List.reverse_reverse]
  · intro segment hin
    exact List.mem_takeWhile_imp (List.mem_reverse.mp hin)

theorem isFiller_of_dropFillersAtEnd {last : Text} (h : dropFillersAtEnd all = more ++ [last]) :
    isFiller last = false := by
  have hhead : (all.reverse.dropWhile isFiller).head? = some last := by
    rw [← List.getLast?_reverse, ← dropFillersAtEnd, h, List.getLast?_concat]
  have hnot := List.head?_dropWhile_not isFiller all.reverse
  rw [hhead] at hnot
  exact hnot

theorem filterMap_component?_fillers (h : ∀ segment ∈ all, isFiller segment = true) :
    all.filterMap (component? false) = [] :=
  List.filterMap_eq_nil_iff.mpr fun segment hin => component?_of_isFiller (h segment hin)

/-! ## One component -/

theorem isAbsolute_of_prefix (h : outer <+: path) (hne : outer ≠ []) : isAbsolute outer = isAbsolute path := by
  obtain ⟨rest, rfl⟩ := h
  obtain ⟨c, outer, rfl⟩ := List.exists_cons_of_ne_nil hne
  rfl

theorem isAbsolute_of_leading {leading : Text} {others : List Text} (hs : segments path = leading :: others)
    (hleading : leading ≠ []) : isAbsolute path = false := by
  by_contra h
  exact hleading (leading_of_isAbsolute (by simpa using h) hs)

theorem eq_of_segments_nil {others : List Text} (hothers : others ≠ [])
    (hs : segments path = [] :: others) : path = "/" ++ ofSegments others := by
  have heq : path = ([] : Text) ++ "/" ++ ofSegments others := eq_of_segments hothers hs
  rwa [List.nil_append] at heq

/-- Fillers at the end of a path say nothing. -/
theorem behind_of_segments {leading : Text} {others fillers : List Text}
    (hs : segments path = leading :: (others ++ fillers))
    (hfillers : ∀ segment ∈ fillers, isFiller segment = true) :
    behind path = (component? false leading).toList ++ others.filterMap (component? false) := by
  rw [behind, hs, List.filterMap_cons, List.filterMap_append, filterMap_component?_fillers hfillers,
    List.append_nil]
  cases component? false leading <;> rfl

theorem exists_component?_of_dropFillersAtEnd {last : Text} (h : dropFillersAtEnd all = more ++ [last]) :
    ∃ c, component? false last = some c := by
  rcases component?_cases last with ⟨hyes, -⟩ | ⟨-, hc⟩ | ⟨-, -, hc⟩
  · rw [isFiller_of_dropFillersAtEnd h] at hyes
    cases hyes
  · exact ⟨_, hc⟩
  · exact ⟨_, hc⟩

/-- The parent of a path at the top is the top. -/
theorem isOuter_root {others fillers : List Text} {last : Text}
    (hs : segments path = [] :: (others ++ [last] ++ fillers))
    (hothers : ∀ segment ∈ others, isFiller segment = true) (hlast : isFiller last = false)
    (hfillers : ∀ segment ∈ fillers, isFiller segment = true) : IsOuter "/" path := by
  have hsome : others ++ [last] ++ fillers ≠ [] := by simp
  have heq := eq_of_segments_nil hsome hs
  have hmore : ofSegments (others ++ [last] ++ fillers) ≠ [] := by
    intro hnil
    rw [hnil] at heq
    rw [heq] at hs
    have htop : segments "/" = [[], []] := by decide
    have hin : last ∈ segments "/" := hs ▸ by simp
    rw [htop] at hin
    rw [List.mem_pair, or_self] at hin
    rw [hin] at hlast
    cases hlast
  have hbehind := behind_of_segments hs hfillers
  rw [List.filterMap_append, filterMap_component?_fillers hothers, List.nil_append] at hbehind
  refine ⟨⟨_, heq.symm⟩, ?_, ?_, ?_, Or.inr (Or.inl rfl)⟩
  · rw [heq, List.length_append]
    exact Nat.lt_add_of_pos_right (List.length_pos_iff.mpr hmore)
  · rw [hbehind, List.filterMap_cons]
    cases component? false last <;> rfl
  · rw [heq]
    rfl

/-- A path with a parent is the parent with one more component. -/
theorem isOuter_of_parent? (h : parent? path = some outer) : IsOuter outer path := by
  obtain ⟨leading, others, hs⟩ := exists_segments path
  obtain ⟨fillers, hothers, hfillers⟩ := exists_fillers others
  have hbehind := behind_of_segments (hothers ▸ hs) hfillers
  unfold parent? at h
  rw [hs] at h
  dsimp only at h
  cases hlast : (dropFillersAtEnd others).reverse with
  | nil =>
    rw [hlast] at h
    dsimp only at h
    split at h
    · cases h
    rename_i hleading
    cases h
    rw [List.reverse_eq_nil_iff.mp hlast] at hbehind
    have hne : path ≠ [] := by
      rintro rfl
      exact hleading (List.cons.inj hs).1.symm
    refine ⟨List.nil_prefix, List.length_pos_iff.mpr hne, ?_, ?_, Or.inl rfl⟩
    · rw [hbehind]
      cases component? false leading <;> rfl
    · rw [isAbsolute_of_leading hs hleading]
      rfl
  | cons last inner =>
    rw [hlast] at h
    cases h
    rw [List.reverse_eq_cons_iff] at hlast
    obtain ⟨fillers', hkept, hfillers'⟩ := exists_fillers inner.reverse
    have hnot := isFiller_of_dropFillersAtEnd hlast
    split
    · rename_i hroot
      rw [hroot.2, List.nil_append] at hkept
      rw [hothers, hlast, hkept, hroot.1] at hs
      exact isOuter_root hs hfillers' hnot hfillers
    rename_i hroot
    let kept := dropFillersAtEnd inner.reverse
    have hsplit : segments path = (leading :: kept) ++ (fillers' ++ ([last] ++ fillers)) := by
      rw [hs, hothers, hlast, hkept]
      simp [kept]
    have hsegments : segments (ofSegments (leading :: kept)) = leading :: kept :=
      Text.pieces_join (by simp) fun segment hin =>
        Text.not_mem_of_mem_pieces (show segment ∈ segments path from hsplit ▸ List.mem_append_left _ hin)
    have hmore : fillers' ++ ([last] ++ fillers) ≠ [] := by simp
    have heq := eq_of_segments hmore (hsegments.symm ▸ hsplit)
    have hfront : ofSegments (leading :: kept) <+: path :=
      ⟨"/" ++ ofSegments _, by rw [← List.append_assoc]; exact heq.symm⟩
    have hne : ofSegments (leading :: kept) ≠ [] := by
      intro hnil
      rw [hnil] at hsegments
      have htop : segments [] = [[]] := rfl
      rw [htop, List.cons.injEq] at hsegments
      exact hroot ⟨hsegments.1.symm, hsegments.2.symm⟩
    refine ⟨hfront, ?_, ?_, isAbsolute_of_prefix hfront hne, Or.inr (Or.inr ⟨_, hmore, ?_⟩)⟩
    · rw [heq]
      simp [kept]
    · obtain ⟨c, hc⟩ := exists_component?_of_dropFillersAtEnd hlast
      rw [hbehind, hlast, behind, hsegments, hkept]
      simp only [List.filterMap_append, List.filterMap_cons, List.filterMap_nil, hc,
        filterMap_component?_fillers hfillers', List.append_nil]
      rw [← List.append_assoc, List.dropLast_concat]
      cases component? false leading <;> rfl
    · rw [hsegments]
      exact hsplit

/-- A path that says something has a parent. -/
theorem exists_parent? (h : behind path ≠ []) : ∃ outer, parent? path = some outer := by
  obtain ⟨leading, others, hs⟩ := exists_segments path
  obtain ⟨fillers, hothers, hfillers⟩ := exists_fillers others
  have hbehind := behind_of_segments (hothers ▸ hs) hfillers
  unfold parent?
  rw [hs]
  dsimp only
  split
  · exact ⟨_, rfl⟩
  · rename_i hnil
    split
    · rename_i hleading
      have hnone : component? false [] = none := by decide
      rw [hleading, List.reverse_eq_nil_iff.mp hnil, hnone] at hbehind
      exact absurd hbehind h
    · exact ⟨_, rfl⟩

/-! ## All of them -/

theorem climb_of_parent? (h : parent? path = some outer) :
    climb (count + 1) path = path :: climb count outer := by
  rw [climb, h]

theorem exists_climb_eq (count : Nat) (path : Text) : ∃ others, climb count path = path :: others := by
  cases count with
  | zero => exact ⟨[], rfl⟩
  | succ count =>
    rw [climb]
    split
    · exact ⟨_, rfl⟩
    · exact ⟨[], rfl⟩

/-- What passes on to the parent of a path holds of all that climbing comes to. -/
theorem forall_mem_climb {P : Text → Prop} (step : ∀ inner outer, IsOuter outer inner → P inner → P outer)
    (h : P path) : ∀ place ∈ climb count path, P place := by
  induction count generalizing path with
  | zero => simpa [climb] using h
  | succ count ih =>
    cases hparent : parent? path with
    | none => simpa [climb, hparent] using h
    | some outer =>
      rw [climb_of_parent? hparent, List.forall_mem_cons]
      exact ⟨h, ih (step path outer (isOuter_of_parent? hparent) h)⟩

theorem behind_of_mem_climb : ∀ place ∈ climb count path, behind place <+: behind path := by
  refine forall_mem_climb (fun inner outer hstep hinner => ?_) List.prefix_rfl
  rw [hstep.behind_eq]
  exact (List.dropLast_prefix _).trans hinner

theorem isAbsolute_of_mem_climb : ∀ place ∈ climb count path, isAbsolute place = isAbsolute path :=
  forall_mem_climb (fun _ _ hstep hinner => hstep.isAbsolute_eq.trans hinner) rfl

/-! ## Names at the end -/

theorem eq_parent_or_name {c : Component} (h : c ∈ behind path) : c = .parent ∨ ∃ name, c = .name name := by
  obtain ⟨segment, -, heq⟩ := List.mem_filterMap.mp h
  rcases component?_cases segment with ⟨-, hc⟩ | ⟨-, hc⟩ | ⟨-, -, hc⟩ <;> rw [hc] at heq
  · cases heq
  · exact Or.inl (Option.some.inj heq).symm
  · exact Or.inr ⟨segment, (Option.some.inj heq).symm⟩

theorem exists_names {components : List Component} (h : ∀ c ∈ components, ∃ name, c = .name name) :
    ∃ names : List Text, components = names.map .name := by
  induction components with
  | nil => exact ⟨[], rfl⟩
  | cons c components ih =>
    obtain ⟨⟨name, rfl⟩, hothers⟩ := List.forall_mem_cons.mp h
    obtain ⟨names, rfl⟩ := ih hothers
    exact ⟨name :: names, rfl⟩

theorem exists_behind_eq (path : Text) : ∃ outer, ∃ names : List Text,
    behind path = outer ++ names.map .name ∧ names.length = namesAtEnd path := by
  let ends := (behind path).reverse.takeWhile (· ≠ .parent)
  have hsplit : behind path = ((behind path).reverse.dropWhile (· ≠ .parent)).reverse ++ ends.reverse := by
    rw [← List.reverse_append, List.takeWhile_append_dropWhile, List.reverse_reverse]
  obtain ⟨names, hnames⟩ : ∃ names : List Text, ends.reverse = names.map .name := by
    refine exists_names fun c hin => ?_
    have hends := List.mem_reverse.mp hin
    refine (eq_parent_or_name (List.mem_reverse.mp ((List.takeWhile_prefix _).subset hends))).resolve_left ?_
    simpa using List.mem_takeWhile_imp hends
  refine ⟨_, names, hnames ▸ hsplit, ?_⟩
  have hlength := congrArg List.length hnames
  rw [List.length_reverse, List.length_map] at hlength
  exact hlength.symm

end

end Phrasebook.Path
