import Mathlib.Data.List.Induction
import Phrasebook.Proofs.Markup.LegalForest

/-!
# One token after the other

What a run of the builder keeps is shown token by token, and what closing many elements keeps is shown
for one. An end tag has one of three outcomes, which its name and the open elements decide.
-/

namespace Phrasebook.Markup.Builder

/-! ## Runs -/

theorem foldlM_add_append {placed : List Placed} {builder builder' : Builder}
    (h : placed.foldlM add builder = .ok builder') (later : List Placed) :
    (placed ++ later).foldlM add builder = later.foldlM add builder' := by
  rw [List.foldlM_append, h]
  rfl

theorem foldlM_add_cons {placed : Placed} {builder builder' : Builder}
    (h : builder.add placed = .ok builder') (later : List Placed) :
    (placed :: later).foldlM add builder = later.foldlM add builder' := by
  rw [List.foldlM_cons, h]
  rfl

theorem exists_of_cons {placed : Placed} {later : List Placed} {builder builder' : Builder}
    (h : (placed :: later).foldlM add builder = .ok builder') :
    ∃ between, builder.add placed = .ok between ∧ later.foldlM add between = .ok builder' := by
  cases hadd : builder.add placed with
  | error fault =>
    rw [List.foldlM_cons, hadd] at h
    cases h
  | ok between => exact ⟨between, rfl, (foldlM_add_cons hadd later).symm.trans h⟩

theorem foldlM_add_concat {tokens : List Placed} {builder : Builder}
    (h : tokens.foldlM add empty = .ok builder) (placed : Placed) :
    (tokens ++ [placed]).foldlM add empty = builder.add placed := by
  rw [foldlM_add_append h]
  exact bind_pure (builder.add placed)

theorem exists_of_append {tokens later : List Placed} {builder' : Builder}
    (h : (tokens ++ later).foldlM add empty = .ok builder') :
    ∃ builder, tokens.foldlM add empty = .ok builder ∧ later.foldlM add builder = .ok builder' := by
  rw [List.foldlM_append] at h
  cases hrun : tokens.foldlM add empty with
  | error fault =>
    rw [hrun] at h
    cases h
  | ok builder =>
    rw [hrun] at h
    exact ⟨builder, rfl, h⟩

theorem exists_of_concat {tokens : List Placed} {placed : Placed} {builder' : Builder}
    (h : (tokens ++ [placed]).foldlM add empty = .ok builder') :
    ∃ builder, tokens.foldlM add empty = .ok builder ∧ builder.add placed = .ok builder' := by
  obtain ⟨builder, hrun, -⟩ := exists_of_append h
  exact ⟨builder, hrun, (foldlM_add_concat hrun placed).symm.trans h⟩

/-- What holds before the first token, and is kept by every token, holds behind the last. -/
theorem run_induction {P : List Placed → Builder → Prop} (start : P [] empty)
    (step : ∀ {seen : List Placed} {builder builder' : Builder} {placed : Placed},
      P seen builder → builder.add placed = .ok builder' → P (seen ++ [placed]) builder')
    {tokens : List Placed} {builder : Builder} (h : tokens.foldlM add empty = .ok builder) :
    P tokens builder := by
  induction tokens using List.reverseRecOn generalizing builder with
  | nil =>
    cases h
    exact start
  | append_singleton tokens placed ih =>
    obtain ⟨before, hbefore, hadd⟩ := exists_of_concat h
    exact step (ih hbefore) hadd

/-- A run that fails does so at one token, behind others that are taken. -/
theorem exists_of_run_error {tokens : List Placed} {fault : Fault}
    (h : tokens.foldlM add empty = .error fault) :
    ∃ before placed after builder, tokens = before ++ placed :: after ∧
      before.foldlM add empty = .ok builder ∧ builder.add placed = .error fault := by
  induction tokens using List.reverseRecOn with
  | nil => cases h
  | append_singleton tokens placed ih =>
    cases hrun : tokens.foldlM add empty with
    | error fault' =>
      rw [List.foldlM_append, hrun] at h
      cases h
      obtain ⟨before, placed', after, builder, rfl, hbefore, hadd⟩ := ih hrun
      exact ⟨before, placed', after ++ [placed], builder, by simp, hbefore, hadd⟩
    | ok builder =>
      exact ⟨tokens, placed, [], builder, rfl, hrun, (foldlM_add_concat hrun placed).symm.trans h⟩

/-! ## Closing -/

theorem closeMany_induction {P : Builder → Prop} (close : ∀ {builder : Builder}, P builder → P builder.close)
    {builder : Builder} (h : P builder) (count : Nat) : P (closeMany count builder) := by
  induction count generalizing builder with
  | zero => exact h
  | succ count ih => exact ih (close h)

theorem opened_close (builder : Builder) : builder.close.opened = builder.opened.tail := by
  obtain ⟨finished, opened⟩ := builder
  cases opened <;> rfl

theorem opened_closeMany (count : Nat) (builder : Builder) :
    (closeMany count builder).opened = builder.opened.drop count := by
  induction count generalizing builder with
  | zero => rfl
  | succ count ih => rw [closeMany, ih, opened_close, List.drop_tail]

/-- The innermost element with the name, and what is open inside it. -/
theorem closeElement_cases (builder : Builder) (name : Text) :
    (∀ element ∈ builder.opened, element.tag.name ≠ name) ∧
        builder.closeElement name = .error (.unexpectedClose (endTag name)) ∨
      ∃ inner matching outer, builder.opened = inner ++ matching :: outer ∧
        (∀ element ∈ inner, element.tag.name ≠ name) ∧ matching.tag.name = name ∧
        builder.closeElement name =
          match innermostRequired? inner with
          | some blocking => .error (.mismatchedClose (endTag blocking.tag.name) (endTag name))
          | none => .ok (builder.closeMany (inner.length + 1)) := by
  unfold closeElement
  cases hfind : builder.opened.findIdx? fun element => decide (element.tag.name = name) with
  | none =>
    left
    refine ⟨?_, rfl⟩
    intro element hmem
    simpa using List.findIdx?_eq_none_iff.mp hfind element hmem
  | some depth =>
    right
    obtain ⟨hlt, hname, hbefore⟩ := List.findIdx?_eq_some_iff_getElem.mp hfind
    have hdepth : (builder.opened.take depth).length = depth := by
      rw [List.length_take]
      omega
    refine ⟨builder.opened.take depth, builder.opened[depth], builder.opened.drop (depth + 1),
      ?_, ?_, by simpa using hname, ?_⟩
    · rw [← List.drop_eq_getElem_cons hlt, List.take_append_drop]
    · intro element hmem
      obtain ⟨n, hn, rfl⟩ := List.mem_take_iff_getElem.mp hmem
      simpa using hbefore n (by omega)
    · cases hinner : innermostRequired? (builder.opened.take depth) <;> simp only [hinner, hdepth]

theorem innermostRequired?_eq_none_iff {opened : List OpenElement} :
    innermostRequired? opened = none ↔
      ∀ element ∈ opened, isOptionalEnd element.tag.name = true := by
  simp [innermostRequired?]

/-- An end tag that is taken closes the innermost element with its name, and only such inside it as need
no end tag. -/
theorem closeElement_eq_ok {builder builder' : Builder} {name : Text}
    (h : builder.closeElement name = .ok builder') :
    ∃ inner matching outer, builder.opened = inner ++ matching :: outer ∧
      (∀ element ∈ inner, element.tag.name ≠ name) ∧ matching.tag.name = name ∧
      (∀ element ∈ inner, isOptionalEnd element.tag.name = true) ∧
      builder' = builder.closeMany (inner.length + 1) := by
  rcases builder.closeElement_cases name with
    ⟨-, hclose⟩ | ⟨inner, matching, outer, hopened, hinner, hname, hclose⟩
  · rw [hclose] at h
    cases h
  · rw [hclose] at h
    split at h
    · cases h
    · rename_i hnone
      cases h
      exact ⟨inner, matching, outer, hopened, hinner, hname,
        innermostRequired?_eq_none_iff.mp hnone, rfl⟩

theorem add_closeTag (builder : Builder) (name : Text) (position : Position) :
    builder.add ⟨.closeTag name, position⟩ =
      if isVoid name then .ok builder
      else (builder.closeElement name).mapError fun cause => ⟨cause, position⟩ := rfl

/-! ## Whole streams -/

theorem ofTokens_eq_ok_iff {stream : TokenStream} {forest : Forest} :
    Forest.ofTokens stream = .ok forest ↔
      ∃ builder, stream.tokens.foldlM add empty = .ok builder ∧ stream.fault = none ∧
        builder.finish = .ok forest := by
  unfold Forest.ofTokens
  cases stream.tokens.foldlM add empty with
  | error fault => simp [bind, Except.bind]
  | ok builder => cases hfault : stream.fault <;> simp [bind, Except.bind]

theorem ofTokens_of_run_error {stream : TokenStream} {fault : Fault}
    (h : stream.tokens.foldlM add empty = .error fault) : Forest.ofTokens stream = .error fault := by
  unfold Forest.ofTokens
  rw [h]
  rfl

theorem ofTokens_of_fault {stream : TokenStream} {builder : Builder} {fault : Fault}
    (h : stream.tokens.foldlM add empty = .ok builder) (hfault : stream.fault = some fault) :
    Forest.ofTokens stream = .error fault := by
  unfold Forest.ofTokens
  rw [h, hfault]
  rfl

theorem ofTokens_eq_error {stream : TokenStream} {fault : Fault}
    (h : Forest.ofTokens stream = .error fault) :
    stream.tokens.foldlM add empty = .error fault ∨
      ∃ builder, stream.tokens.foldlM add empty = .ok builder ∧
        (stream.fault = some fault ∨ stream.fault = none ∧ builder.finish = .error fault) := by
  unfold Forest.ofTokens at h
  cases hrun : stream.tokens.foldlM add empty with
  | error fault' =>
    rw [hrun] at h
    cases h
    exact Or.inl rfl
  | ok builder =>
    rw [hrun] at h
    refine Or.inr ⟨builder, rfl, ?_⟩
    cases hfault : stream.fault with
    | some fault' =>
      rw [hfault] at h
      cases h
      exact Or.inl rfl
    | none =>
      rw [hfault] at h
      exact Or.inr ⟨rfl, h⟩

end Phrasebook.Markup.Builder
