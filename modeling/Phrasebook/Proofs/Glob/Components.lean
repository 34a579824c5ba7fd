import Phrasebook.Proofs.Glob.Pattern
import Phrasebook.Proofs.Glob.Step
import Phrasebook.Proofs.Outcome

/-!
# Components of patterns

A pattern behind a base has the components of the base and its own, and if the base is plain it can be
read exactly if it can be read alone. Of the steps of a pattern those that look names up are its
components without wildcards.
-/

namespace Phrasebook.Glob

/-! ## Components -/

section

variable {text base other component : Text} {pattern : Pattern} {patterns : List Pattern}

theorem segments_eq_componentTexts (text : Text) :
    Path.segments text = componentTexts text ∨ Path.segments text = componentTexts text ++ [[]] := by
  unfold componentTexts
  dsimp only
  split
  · rename_i hlast
    obtain ⟨front, heq⟩ := List.getLast?_eq_some_iff.mp hlast
    right
    rw [heq, List.dropLast_concat]
    exact heq
  · exact Or.inl rfl

theorem mem_segments_of_mem_componentTexts (h : component ∈ componentTexts text) :
    component ∈ Path.segments text := by
  rcases segments_eq_componentTexts text with heq | heq <;> rw [heq]
  · exact h
  · exact List.mem_append_left _ h

theorem mem_componentTexts (hne : component ≠ []) (h : component ∈ Path.segments text) :
    component ∈ componentTexts text := by
  rcases segments_eq_componentTexts text with heq | heq <;> rw [heq] at h
  · exact h
  · exact (List.mem_append.mp h).resolve_right (by simpa using hne)

theorem componentTexts_of_segments {front : List Text}
    (h : Path.segments text = front ++ Path.segments other) :
    componentTexts text = front ++ componentTexts other := by
  have hne := Text.pieces_ne_nil '/' other
  change Text.pieces '/' text = front ++ Text.pieces '/' other at h
  unfold componentTexts
  dsimp only
  rw [h, List.getLast?_append_of_ne_nil _ hne, List.dropLast_append_of_ne_nil hne]
  split <;> rfl

theorem componentTexts_join (hbase : base ≠ []) (hother : Path.isAbsolute other = false) :
    componentTexts (Path.join base other) = componentTexts base ++ componentTexts other := by
  unfold Path.join
  rw [if_neg (by simp [hother])]
  obtain ⟨front, last, rfl⟩ : ∃ front last, base = front ++ [last] :=
    ⟨_, _, (List.dropLast_append_getLast hbase).symm⟩
  by_cases hlast : last = '/'
  · subst hlast
    have hfront (text : Text) :
        componentTexts (front ++ '/' :: text) = Path.segments front ++ componentTexts text :=
      componentTexts_of_segments (Text.pieces_append '/' front text)
    have hnil : componentTexts [] = [] := by decide
    rw [if_pos (by simp), List.append_assoc, List.singleton_append, hfront, hfront, hnil,
      List.append_nil]
  · have hfront : componentTexts (front ++ [last]) = Path.segments (front ++ [last]) := by
      obtain ⟨outer, piece, heq⟩ := Text.exists_pieces_append_singleton hlast front
      change Path.segments (front ++ [last]) = _ at heq
      rcases segments_eq_componentTexts (front ++ [last]) with h | h
      · exact h.symm
      · rw [h] at heq
        exact absurd (List.append_inj' heq rfl).2 (by simp)
    rw [if_neg (by simp [hlast]), hfront, List.append_assoc]
    exact componentTexts_of_segments (Text.pieces_append '/' (front ++ [last]) other)

/-- The patterns of the components, without a look at the whole. -/
theorem compileComponents_eq_ok_iff : compileComponents text = .ok patterns ↔
    (compile text).isOk = true ∧ (componentTexts text).mapM compile = .ok patterns := by
  unfold compileComponents
  cases compile text <;> simp [bind, Except.bind, Except.isOk, Except.toBool]

theorem mapM_compile_of_plain {components : List Text} (h : ∀ text ∈ components, isPlain text = true) :
    components.mapM compile = .ok (components.map (List.map .char)) := by
  induction components with
  | nil => rfl
  | cons first others ih =>
    rw [List.forall_mem_cons] at h
    rw [List.mapM_cons, compile_plain h.1, ih h.2]
    rfl

/-- A plain base stands before the patterns as it is. -/
theorem compileComponents_join_iff (hplain : isPlain base = true) (hbase : base ≠ [])
    (hother : Path.isAbsolute other = false) :
    compileComponents (Path.join base other) = .ok patterns ↔
      ∃ inner, compileComponents other = .ok inner ∧
        patterns = (componentTexts base).map (List.map .char) ++ inner := by
  have hfront : (componentTexts base).mapM compile =
      .ok ((componentTexts base).map (List.map .char)) :=
    mapM_compile_of_plain fun text hin =>
      isPlain_of_mem_segments hplain (mem_segments_of_mem_componentTexts hin)
  simp only [compileComponents_eq_ok_iff, isOk_compile_join hplain hother,
    componentTexts_join hbase hother, List.mapM_append, hfront]
  constructor
  · rintro ⟨hok, h⟩
    cases hinner : (componentTexts other).mapM compile with
    | error _ =>
      rw [hinner] at h
      cases h
    | ok inner =>
      rw [hinner] at h
      exact ⟨inner, ⟨hok, rfl⟩, (Except.ok.inj h).symm⟩
  · rintro ⟨inner, ⟨hok, hinner⟩, rfl⟩
    rw [hinner]
    exact ⟨hok, rfl⟩

/-! ## Steps -/

theorem isRecursive_of_literal? {literal : Text} (h : literal? pattern = some literal) :
    isRecursive pattern = false := by
  rw [literal?_eq_some_iff] at h
  simp [isRecursive, h]

theorem steps_cons_plain (segment : Text) (patterns : List Pattern) :
    steps (segment.map .char :: patterns) = .literal segment :: steps patterns := by
  have hliteral : literal? (segment.map .char) = some segment := literal?_eq_some_iff.mpr rfl
  have hrecursive := isRecursive_of_literal? hliteral
  cases patterns with
  | nil => simp [steps, hrecursive, Step.ofPattern, hliteral]
  | cons next others => simp [steps, hrecursive, Step.ofPattern, hliteral]

theorem steps_append_plain (segments : List Text) (patterns : List Pattern) :
    steps (segments.map (List.map .char) ++ patterns) = segments.map .literal ++ steps patterns := by
  induction segments with
  | nil => rfl
  | cons segment segments ih =>
    rw [List.map_cons, List.cons_append, steps_cons_plain, ih]
    rfl

theorem isLiteral_ofPattern (h : literal? pattern = none) :
    (Step.ofPattern pattern).isLiteral = false := by
  rw [Step.ofPattern, h]
  rfl

/-- Where one of the patterns has a wildcard, one of the steps is no lookup. -/
theorem exists_step_of_mem (h : ∃ pattern ∈ patterns, literal? pattern = none) :
    ∃ step ∈ steps patterns, step.isLiteral = false := by
  fun_induction steps patterns with
  | case1 => simp at h
  | case2 => exact ⟨_, List.mem_singleton_self _, rfl⟩
  | case3 =>
    obtain ⟨pattern, hin, hnone⟩ := h
    rw [List.mem_singleton.mp hin] at hnone
    exact ⟨_, List.mem_singleton_self _, isLiteral_ofPattern hnone⟩
  | case4 pattern next others _ hnext ih =>
    refine ih ⟨next, List.mem_cons_self, ?_⟩
    cases hliteral : literal? next with
    | none => rfl
    | some _ =>
      rw [isRecursive_of_literal? hliteral] at hnext
      cases hnext
  | case5 => exact ⟨_, List.mem_cons_self, rfl⟩
  | case6 pattern next others _ ih =>
    rw [List.exists_mem_cons_iff] at h ⊢
    rcases h with hnone | h
    · exact Or.inl (isLiteral_ofPattern hnone)
    · exact Or.inr (ih h)

theorem exists_of_mapM_compile_cons {first : Text} {others : List Text}
    (h : (first :: others).mapM compile = .ok patterns) :
    ∃ pattern later, patterns = pattern :: later ∧ compile first = .ok pattern ∧
      others.mapM compile = .ok later := by
  rw [List.mapM_cons] at h
  obtain ⟨pattern, hfirst, h⟩ := bind_eq_ok.mp h
  obtain ⟨later, hothers, h⟩ := bind_eq_ok.mp h
  exact ⟨pattern, later, (Except.ok.inj h).symm, hfirst, hothers⟩

theorem exists_pattern_of_component {components : List Text}
    (h : components.mapM compile = .ok patterns) (hin : component ∈ components) :
    ∃ pattern ∈ patterns, compile component = .ok pattern := by
  induction components generalizing patterns with
  | nil => cases hin
  | cons first others ih =>
    obtain ⟨pattern, later, rfl, hfirst, hothers⟩ := exists_of_mapM_compile_cons h
    rw [List.exists_mem_cons_iff]
    rcases List.mem_cons.mp hin with rfl | hin
    · exact Or.inl hfirst
    · exact Or.inr (ih hothers hin)

theorem exists_component_of_pattern {components : List Text}
    (h : components.mapM compile = .ok patterns) (hin : pattern ∈ patterns) :
    ∃ component ∈ components, compile component = .ok pattern := by
  induction components generalizing patterns with
  | nil =>
    cases h
    cases hin
  | cons first others ih =>
    obtain ⟨found, later, rfl, hfirst, hothers⟩ := exists_of_mapM_compile_cons h
    rw [List.exists_mem_cons_iff]
    rcases List.mem_cons.mp hin with rfl | hin
    · exact Or.inl hfirst
    · exact Or.inr (ih hothers hin)

theorem literal?_of_ofPattern {segment : Text} (h : Step.ofPattern pattern = .literal segment) :
    literal? pattern = some segment := by
  unfold Step.ofPattern at h
  split at h
  · rename_i heq
    cases h
    exact heq
  · cases h

theorem exists_pattern_of_literal_mem {segment : Text} (h : .literal segment ∈ steps patterns) :
    ∃ pattern ∈ patterns, literal? pattern = some segment := by
  fun_induction steps patterns with
  | case1 => cases h
  | case2 => simp at h
  | case3 => exact ⟨_, List.mem_singleton_self _, literal?_of_ofPattern (List.mem_singleton.mp h).symm⟩
  | case4 pattern next others _ _ ih =>
    obtain ⟨found, hfound, heq⟩ := ih h
    exact ⟨found, List.mem_cons_of_mem _ hfound, heq⟩
  | case5 pattern next others _ _ ih =>
    obtain ⟨found, hfound, heq⟩ := ih ((List.mem_cons.mp h).resolve_left (by simp))
    exact ⟨found, List.mem_cons_of_mem _ (List.mem_cons_of_mem _ hfound), heq⟩
  | case6 pattern next others _ ih =>
    rw [List.exists_mem_cons_iff]
    exact (List.mem_cons.mp h).imp (fun h => literal?_of_ofPattern h.symm) ih

theorem mem_of_literal_mem_steps {segment : Text} {components : List Text}
    (h : components.mapM compile = .ok patterns) (hin : .literal segment ∈ steps patterns) :
    segment ∈ components := by
  obtain ⟨pattern, hpattern, hliteral⟩ := exists_pattern_of_literal_mem hin
  obtain ⟨component, hcomponent, hcompile⟩ := exists_component_of_pattern h hpattern
  rw [(literal_of_compile hcompile hliteral).1]
  exact hcomponent

/-- A text with a wildcard has a component that is no literal. -/
theorem exists_pattern_of_hasWildcard (hwildcard : hasWildcard text = true)
    (h : (componentTexts text).mapM compile = .ok patterns) :
    ∃ pattern ∈ patterns, literal? pattern = none := by
  obtain ⟨c, hc, hin⟩ : ∃ c, (c = '*' ∨ c = '?') ∧ c ∈ text := by
    simp only [hasWildcard, Bool.or_eq_true, List.contains_iff_mem] at hwildcard
    rcases hwildcard with hin | hin
    · exact ⟨_, Or.inl rfl, hin⟩
    · exact ⟨_, Or.inr rfl, hin⟩
  have hslash : c ≠ '/' := by rcases hc with rfl | rfl <;> decide
  obtain ⟨component, hsegment, hinside⟩ := Text.exists_mem_pieces hslash hin
  have hcomponent := mem_componentTexts (List.ne_nil_of_mem hinside) hsegment
  obtain ⟨pattern, hpattern, hcompile⟩ := exists_pattern_of_component h hcomponent
  refine ⟨pattern, hpattern, ?_⟩
  by_contra hliteral
  obtain ⟨literal, hliteral⟩ := Option.ne_none_iff_exists'.mp hliteral
  have hplain := isPlain_eq_true_iff.mp (literal_of_compile hcompile hliteral).2 c hinside
  rcases hc with rfl | rfl
  · exact hplain.2.1 rfl
  · exact hplain.1 rfl

end

/-! ## Room -/

theorem sum_padding_steps_le (patterns : List Pattern) :
    ((steps patterns).map Step.padding).sum ≤
      (patterns.map fun pattern => (Step.ofPattern pattern).padding).sum := by
  fun_induction steps patterns with
  | case1 => exact le_rfl
  | case2 => exact Nat.zero_le _
  | case3 => exact le_rfl
  | case4 pattern next others _ _ ih =>
    rw [List.map_cons, List.sum_cons]
    omega
  | case5 pattern next others _ _ ih =>
    have hzero : (Step.entriesBelow next).padding = 0 := rfl
    simp only [List.map_cons, List.sum_cons, hzero]
    omega
  | case6 pattern next others _ ih =>
    rw [List.map_cons, List.sum_cons, List.map_cons, List.sum_cons]
    omega

theorem padding_ofPattern_le {text : Text} {pattern : Pattern} (h : compile text = .ok pattern) :
    (Step.ofPattern pattern).padding ≤ Text.byteLength text + 1 := by
  unfold Step.ofPattern
  cases hliteral : literal? pattern with
  | none => exact Nat.zero_le _
  | some literal =>
    rw [(literal_of_compile h hliteral).1]
    exact le_rfl

theorem sum_padding_le {components : List Text} {patterns : List Pattern}
    (h : components.mapM compile = .ok patterns) :
    (patterns.map fun pattern => (Step.ofPattern pattern).padding).sum ≤
      (components.map fun text => Text.byteLength text + 1).sum := by
  induction components generalizing patterns with
  | nil =>
    cases h
    exact le_rfl
  | cons first others ih =>
    obtain ⟨pattern, later, rfl, hfirst, hothers⟩ := exists_of_mapM_compile_cons h
    rw [List.map_cons, List.sum_cons, List.map_cons, List.sum_cons]
    exact Nat.add_le_add (padding_ofPattern_le hfirst) (ih hothers)

theorem sum_componentTexts_le (text : Text) :
    ((componentTexts text).map fun component => Text.byteLength component + 1).sum ≤
      Text.byteLength text + 1 := by
  rw [← Text.sum_byteLength_pieces]
  change _ ≤ ((Path.segments text).map _).sum
  rcases segments_eq_componentTexts text with heq | heq <;> rw [heq]
  simp

end Phrasebook.Glob
