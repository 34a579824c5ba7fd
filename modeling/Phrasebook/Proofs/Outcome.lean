import Mathlib.Data.List.Forall2

/-!
# Outcomes of steps

A reader that takes two steps succeeds if both of them do, and fails with the fault of the first that
fails. What a search finds in a list stems from a part of the list, in its order.
-/

namespace Phrasebook

section

variable {ε α β : Type} {outcome : Except ε α} {next : α → Except ε β} {f : α → β} {fault : ε}

theorem bind_eq_ok {b : β} :
    outcome >>= next = .ok b ↔ ∃ a, outcome = .ok a ∧ next a = .ok b := by
  cases outcome <;> simp [bind, Except.bind]

theorem bind_eq_error :
    outcome >>= next = .error fault ↔
      outcome = .error fault ∨ ∃ a, outcome = .ok a ∧ next a = .error fault := by
  cases outcome <;> simp [bind, Except.bind]

theorem map_eq_ok {b : β} : outcome.map f = .ok b ↔ ∃ a, outcome = .ok a ∧ f a = b := by
  cases outcome <;> simp [Except.map]

theorem isOk_iff : outcome.isOk = true ↔ ∃ a, outcome = .ok a := by
  cases outcome <;> simp [Except.isOk, Except.toBool]

theorem map_eq_error : outcome.map f = .error fault ↔ outcome = .error fault := by
  cases outcome <;> simp [Except.map]

end

section

variable {α β γ : Type}

theorem exists_filterMap (f : α → Option β) (all : List α) :
    ∃ chosen, chosen.Sublist all ∧ List.Forall₂ (fun a b => f a = some b) chosen (all.filterMap f) := by
  induction all with
  | nil => exact ⟨[], .slnil, .nil⟩
  | cons a all ih =>
    obtain ⟨chosen, hsub, hchosen⟩ := ih
    rw [List.filterMap_cons]
    cases hf : f a with
    | none => exact ⟨chosen, hsub.cons a, hchosen⟩
    | some b => exact ⟨a :: chosen, hsub.cons_cons a, .cons hf hchosen⟩

theorem exists_of_forall₂ {R : α → β → Prop} {as : List α} {bs : List β} (h : List.Forall₂ R as bs) :
    ∀ a ∈ as, ∃ b, R a b := by
  induction h with
  | nil => simp
  | cons hab _ ih => exact List.forall_mem_cons.mpr ⟨⟨_, hab⟩, ih⟩

theorem exists_getElem?_of_forall₂ {R : α → β → Prop} {as : List α} {bs : List β}
    (h : List.Forall₂ R as bs) {number : Nat} {a : α} (found : as[number]? = some a) :
    ∃ b, bs[number]? = some b ∧ R a b := by
  obtain ⟨hlength, hitems⟩ := List.forall₂_iff_get.mp h
  obtain ⟨hlt, rfl⟩ := List.getElem?_eq_some_iff.mp found
  exact ⟨_, List.getElem?_eq_getElem (hlength ▸ hlt), hitems number hlt (hlength ▸ hlt)⟩

theorem map_eq_map_of_forall₂ {f : α → γ} {g : β → γ} {as : List α} {bs : List β}
    (h : List.Forall₂ (fun a b => f a = g b) as bs) : as.map f = bs.map g := by
  rwa [← List.forall₂_eq_eq_eq, List.forall₂_map_left_iff, List.forall₂_map_right_iff]

theorem filterMap_eq_filterMap_of_forall₂ {f : α → Option γ} {g : β → Option γ} {as : List α}
    {bs : List β} (h : List.Forall₂ (fun a b => f a = g b) as bs) : as.filterMap f = bs.filterMap g := by
  induction h with
  | nil => rfl
  | cons hab _ ih => rw [List.filterMap_cons, List.filterMap_cons, hab, ih]

end

end Phrasebook
