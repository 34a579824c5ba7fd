import Phrasebook.Proofs.Scope.Delegation

/-!
# Who a delegate takes over from

Several elements, one inside the other, may have the same delegate. Each is entered as the one that the
delegate takes over from, over those before it, so that the innermost remains.
-/

namespace Phrasebook

open Markup Text

/-! ## The last entry -/

namespace Guarded

theorem lastDelegator_concat (number : Nat) (delegates : List (Option Nat)) (delegate : Option Nat) :
    lastDelegator number 0 none (delegates ++ [delegate]) =
      if delegate = some number then some delegates.length else lastDelegator number 0 none delegates := by
  rw [lastDelegator_append, Nat.zero_add]
  rfl

theorem lastDelegator_eq_some_iff {number container : Nat} {delegates : List (Option Nat)} :
    lastDelegator number 0 none delegates = some container ↔
      delegates[container]? = some (some number) ∧
        ∀ later, container < later → delegates[later]? ≠ some (some number) := by
  induction delegates using List.reverseRecOn with
  | nil => simp [lastDelegator]
  | append_singleton delegates delegate ih =>
    have hlast : (delegates ++ [delegate])[delegates.length]? = some delegate := by simp
    rw [lastDelegator_concat]
    split
    · rename_i heq
      rw [heq] at hlast
      constructor
      · intro h
        obtain rfl := Option.some.inj h
        refine ⟨heq ▸ hlast, fun later hlater => ?_⟩
        rw [List.getElem?_eq_none (by rw [List.length_append, List.length_singleton]; omega)]
        exact (Option.some_ne_none _).symm
      · rintro ⟨hcontainer, hlater⟩
        have hle := (List.getElem?_eq_some_iff.mp hcontainer).1
        rw [List.length_append, List.length_singleton] at hle
        rcases Nat.lt_or_ge container delegates.length with hlt | hge
        · exact absurd (heq ▸ hlast) (hlater _ hlt)
        · exact congrArg some (by omega)
    · rename_i hne
      have hsame : ∀ place : Nat, (delegates ++ [delegate])[place]? = some (some number) ↔
          delegates[place]? = some (some number) := by
        intro place
        rcases Nat.lt_trichotomy place delegates.length with hlt | rfl | hgt
        · rw [List.getElem?_append_left hlt]
        · simpa using hne
        · rw [List.getElem?_eq_none (by rw [List.length_append, List.length_singleton]; omega),
            List.getElem?_eq_none (by omega)]
      simp only [ih, hsame, ne_eq]

theorem exists_lastDelegator {number : Nat} {delegates : List (Option Nat)} (h : some number ∈ delegates) :
    ∃ container, lastDelegator number 0 none delegates = some container := by
  induction delegates using List.reverseRecOn with
  | nil => cases h
  | append_singleton delegates delegate ih =>
    rw [lastDelegator_concat]
    split
    · exact ⟨_, rfl⟩
    · rename_i hne
      rcases List.mem_append.mp h with h | h
      · exact ih h
      · exact absurd (List.mem_singleton.mp h).symm hne

theorem length_of_replace {α : Type} {list after : List α} {number : Nat} {a : α}
    (h : replace list number a = .ok after) : after.length = list.length := by
  rw [replace] at h
  split at h
  · cases h
    exact List.length_set
  · cases h

theorem length_of_delegatesFrom {rules : Rules} {document : Document} {numbers : List Nat}
    {before after : Scopes} (h : delegatesFrom rules document numbers before = .ok after) :
    after.delegators.length = before.delegators.length := by
  induction numbers generalizing before with
  | nil =>
    cases h
    rfl
  | cons number later ih =>
    rw [delegatesFrom, bind_eq_ok] at h
    obtain ⟨delegate, -, h⟩ := h
    cases delegate with
    | none => exact ih h
    | some target =>
      obtain ⟨delegates, -, h⟩ := bind_eq_ok.mp h
      obtain ⟨delegators, hentered, h⟩ := bind_eq_ok.mp h
      exact (ih h).trans (length_of_replace hentered)

theorem length_of_scopes {rules : Rules} {document : Document} {resolved : Scopes}
    (h : scopes rules document = .ok resolved) :
    resolved.delegators.length = document.items.length := by
  obtain ⟨states, -, h⟩ := bind_eq_ok.mp h
  simp only at h
  split at h
  · cases h
    exact List.length_replicate
  · exact (length_of_delegatesFrom h).trans List.length_replicate

end Guarded

namespace Rules

theorem handovers_concat (verdicts : List Verdict) (verdict : Verdict) :
    handovers (verdicts ++ [verdict]) =
      (verdict.delegate.map fun target => (target, verdicts.length)).toList ++ handovers verdicts := by
  rw [handovers, handovers, List.zipIdx_append, List.filterMap_append, List.reverse_append]
  cases hdelegate : verdict.delegate <;> simp [hdelegate]

/-- The list of the library and that of the pass over the numbers tell the same. -/
theorem delegator?_handovers (verdicts : List Verdict) (number : Nat) :
    delegator? (handovers verdicts) number =
      Guarded.lastDelegator number 0 none (verdicts.map Verdict.delegate) := by
  induction verdicts using List.reverseRecOn with
  | nil => rfl
  | append_singleton verdicts verdict ih =>
    rw [List.map_append, List.map_singleton, Guarded.lastDelegator_concat, ← ih, handovers_concat]
    cases verdict.delegate with
    | none => rfl
    | some target =>
      by_cases heq : target = number
      · simp [delegator?, heq]
      · have hne : (number == target) = false := by simpa using Ne.symm heq
        simp [delegator?, List.lookup_cons, heq, hne]

/-! ## The innermost container -/

section

variable {rules : Rules} {rows : List Outline.Row} {number other : Nat}

theorem IsCandidateBelow.isAround (h : rules.IsCandidateBelow rows number other) :
    Outline.IsAround rows number other := by
  obtain ⟨⟨depth, hpos, -, hdown⟩, -⟩ := h
  obtain ⟨steps, rfl⟩ := Nat.exists_eq_add_one_of_ne_zero (Nat.ne_of_gt hpos)
  exact ⟨steps, hdown⟩

/-- Within one level the container is the parent. -/
theorem IsCandidateBelow.parent {roots : List Nat} (tiled : Outline.Tiled roots rows)
    (hdepth : rules.policy.delegateDepth ≤ 1) (h : rules.IsCandidateBelow rows number other) :
    ∃ row, rows[other]? = some row ∧ row.parent = some number := by
  obtain ⟨⟨depth, hpos, hle, hdown⟩, -⟩ := h
  obtain rfl : depth = 1 := by omega
  obtain ⟨row, parent, hrow, hparent, hup⟩ := tiled.descends_succ_iff.mp hdown
  cases hup
  exact ⟨row, hrow, hparent⟩

end

section

variable {rules : Rules} {forest : Forest} {resolved : Guarded.Scopes}

theorem isCandidateBelow_of_delegate (omitted : Text) {container target : Nat}
    (h : ((rules.verdicts forest).map Verdict.delegate)[container]? = some (some target)) :
    rules.IsCandidateBelow (forest.outline omitted) container target := by
  rw [List.getElem?_map, Option.map_eq_some_iff] at h
  obtain ⟨verdict, found, hdelegate⟩ := h
  exact (((rules.delegate_eq_some_iff omitted found target).mp hdelegate).2 target).mpr rfl

/-- The node that a delegate is entered with is the last of those that hand over to it. -/
theorem delegators_iff (h : Guarded.scopes rules forest.document = .ok resolved) (container target : Nat) :
    resolved.delegators[target]? = some (some container) ↔
      ((rules.verdicts forest).map Verdict.delegate)[container]? = some (some target) ∧
        ∀ later, container < later →
          ((rules.verdicts forest).map Verdict.delegate)[later]? ≠ some (some target) := by
  obtain ⟨delegators, hscopes, hentries⟩ := Guarded.scopes_spec rules forest
  have hlength := (Guarded.length_of_scopes hscopes).trans (Forest.length_items none 0 forest)
  obtain rfl := Except.ok.inj (h.symm.trans hscopes)
  rw [← Guarded.lastDelegator_eq_some_iff]
  rcases Nat.lt_or_ge target forest.size with hlt | hge
  · rw [hentries target hlt, Option.some.injEq]
  · rw [List.getElem?_eq_none (hlength ▸ hge)]
    refine ⟨nofun, fun hlast => ?_⟩
    have hdelegate := (Guarded.lastDelegator_eq_some_iff.mp hlast).1
    have hbounds := (Guarded.bounds_of_delegate hdelegate).2
    omega

/-- Of the nodes that hand over to one delegate the last is the innermost. -/
theorem delegators_iff_innermost (h : Guarded.scopes rules forest.document = .ok resolved) (omitted : Text)
    (container target : Nat) : resolved.delegators[target]? = some (some container) ↔
      ((rules.verdicts forest).map Verdict.delegate)[container]? = some (some target) ∧
        ∀ inner, Outline.IsAround (forest.outline omitted) container inner →
          ((rules.verdicts forest).map Verdict.delegate)[inner]? ≠ some (some target) := by
  have tiled := forest.tiled_outline omitted
  rw [delegators_iff h]
  refine and_congr_right fun hcontainer => ⟨fun hlast inner haround => ?_, fun hinner later hlt hlater => ?_⟩
  · exact hlast inner (tiled.lt_of_isAround haround)
  · exact hinner later (tiled.isAround_of_lt (isCandidateBelow_of_delegate omitted hcontainer).isAround
      (isCandidateBelow_of_delegate omitted hlater).isAround hlt) hlater

theorem exists_delegator (h : Guarded.scopes rules forest.document = .ok resolved) (omitted : Text)
    {container target : Nat}
    (hcontainer : ((rules.verdicts forest).map Verdict.delegate)[container]? = some (some target)) :
    ∃ inner, resolved.delegators[target]? = some (some inner) ∧
      (inner = container ∨ Outline.IsAround (forest.outline omitted) container inner) := by
  obtain ⟨inner, hinner⟩ := Guarded.exists_lastDelegator (List.mem_of_getElem? hcontainer)
  have hlast := Guarded.lastDelegator_eq_some_iff.mp hinner
  refine ⟨inner, (delegators_iff h inner target).mpr hlast, ?_⟩
  rcases Nat.lt_trichotomy container inner with hlt | rfl | hgt
  · exact Or.inr ((forest.tiled_outline omitted).isAround_of_lt
      (isCandidateBelow_of_delegate omitted hcontainer).isAround
      (isCandidateBelow_of_delegate omitted hlast.1).isAround hlt)
  · exact Or.inl rfl
  · exact absurd hcontainer (hlast.2 container hgt)

/-- Within one level there is one node that hands over to a delegate. -/
theorem container_unique (omitted : Text) (hdepth : rules.policy.delegateDepth ≤ 1)
    {container other target : Nat}
    (hcontainer : ((rules.verdicts forest).map Verdict.delegate)[container]? = some (some target))
    (hother : ((rules.verdicts forest).map Verdict.delegate)[other]? = some (some target)) :
    container = other := by
  have tiled := forest.tiled_outline omitted
  obtain ⟨row, hrow, hfirst⟩ := (isCandidateBelow_of_delegate omitted hcontainer).parent tiled hdepth
  obtain ⟨row', hrow', hsecond⟩ := (isCandidateBelow_of_delegate omitted hother).parent tiled hdepth
  obtain rfl := Option.some.inj (hrow.symm.trans hrow')
  exact Option.some.inj (hfirst.symm.trans hsecond)

end

/-- A delegate takes over from the innermost of the nodes that hand over to it, and from no other. With a
depth of one there is no other, so that each of the two maps is the inverse of the other. -/
theorem scopes_delegators_iff (rules : Rules) (omitted : Text) (forest : Forest) :
    ∃ resolved, Guarded.scopes rules forest.document = .ok resolved ∧
      (∀ target : Nat, resolved.delegators[target]?.join =
        delegator? (handovers (rules.verdicts forest)) target) ∧
      (∀ container target : Nat, resolved.delegators[target]? = some (some container) ↔
        resolved.delegates[container]? = some (some target) ∧
          ∀ inner, Outline.IsAround (forest.outline omitted) container inner →
            resolved.delegates[inner]? ≠ some (some target)) ∧
      (∀ container target : Nat, resolved.delegates[container]? = some (some target) →
        ∃ inner, resolved.delegators[target]? = some (some inner) ∧
          (inner = container ∨ Outline.IsAround (forest.outline omitted) container inner)) ∧
      (rules.policy.delegateDepth ≤ 1 → ∀ container target : Nat,
        resolved.delegates[container]? = some (some target) ↔
          resolved.delegators[target]? = some (some container)) := by
  obtain ⟨delegators, hscopes, -⟩ := Guarded.scopes_spec rules forest
  refine ⟨_, hscopes, fun target => ?_, delegators_iff_innermost hscopes omitted,
    fun _ _ => exists_delegator hscopes omitted, fun hdepth container target => ?_⟩
  · refine Option.ext fun container => ?_
    rw [Option.join_eq_some_iff, delegators_iff hscopes, delegator?_handovers,
      Guarded.lastDelegator_eq_some_iff]
  · rw [delegators_iff hscopes]
    refine ⟨fun hcontainer => ⟨hcontainer, fun later hlt hlater => ?_⟩, And.left⟩
    exact absurd (container_unique omitted hdepth hcontainer hlater) (Nat.ne_of_lt hlt)

/-- An item and the paragraph in it have the same delegate, which takes over from the paragraph alone. With
the standard depth the paragraph is the only one to hand over. -/
theorem scopes_delegators_iff_nested :
    ∃ forest, Forest.ofTokens (.ofSource "<ul><!--note--><li><p><a lang=\"en\">x</a></p></li></ul>") =
        .ok forest ∧
      (verdicts ⟨"lang", { TagPolicy.standard with delegateDepth := 2 }⟩ forest).map Verdict.delegate =
        [none, none, some 4, some 4, none, none] ∧
      delegator? (handovers (verdicts ⟨"lang", { TagPolicy.standard with delegateDepth := 2 }⟩ forest)) 4 =
        some 3 ∧
      ∃ resolved, Guarded.scopes ⟨"lang", TagPolicy.standard⟩ forest.document = .ok resolved ∧
        ∀ container target : Nat, resolved.delegates[container]? = some (some target) ↔
          resolved.delegators[target]? = some (some container) := by
  have hsource : Forest.ofTokens (.ofSource "<ul><!--note--><li><p><a lang=\"en\">x</a></p></li></ul>") =
      .ok (.element ⟨"ul", [], false⟩ ⟨0, 1⟩
        (.leaf (.comment "note") ⟨4, 1⟩
          (.element ⟨"li", [], false⟩ ⟨15, 1⟩
            (.element ⟨"p", [], false⟩ ⟨19, 1⟩
              (.element ⟨"a", [⟨"lang", some "en"⟩], false⟩ ⟨22, 1⟩ (.leaf (.text "x") ⟨35, 1⟩ .nil) .nil)
              .nil)
            .nil))
        .nil) := by
    decide +kernel
  refine ⟨_, hsource, by decide +kernel, by decide +kernel, ?_⟩
  obtain ⟨resolved, hscopes, -, -, -, hinverse⟩ := scopes_delegators_iff ⟨"lang", TagPolicy.standard⟩ "lang" _
  exact ⟨resolved, hscopes, hinverse (by decide)⟩

end Rules

end Phrasebook
