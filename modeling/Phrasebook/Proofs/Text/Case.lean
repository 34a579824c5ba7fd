import Phrasebook.Text.Blank

/-!
# Lower case

Lowering a text changes ASCII capitals alone, so that a property that does not tell a capital from its
small letter is kept.
-/

namespace Phrasebook.Text

def capitals : List Char := "ABCDEFGHIJKLMNOPQRSTUVWXYZ".toList

theorem isUpper_iff {c : Char} : c.isUpper = true ↔ 65 ≤ c.toNat ∧ c.toNat ≤ 90 := by
  have h : c.isUpper = decide ('A'.val ≤ c.val ∧ c.val ≤ 'Z'.val) := rfl
  simp only [h, decide_eq_true_eq, UInt32.le_iff_toNat_le]
  rfl

theorem isLower_iff {c : Char} : c.isLower = true ↔ 97 ≤ c.toNat ∧ c.toNat ≤ 122 := by
  have h : c.isLower = (decide ('a'.val ≤ c.val) && decide (c.val ≤ 'z'.val)) := rfl
  simp only [h, Bool.and_eq_true, decide_eq_true_eq, UInt32.le_iff_toNat_le]
  rfl

theorem isAlpha_iff {c : Char} : c.isAlpha = true ↔ c.isUpper = true ∨ c.isLower = true :=
  Bool.or_eq_true_iff

theorem mem_capitals_of_isUpper {c : Char} (h : c.isUpper = true) : c ∈ capitals := by
  have all : ∀ n : Fin 26, Char.ofNat (65 + n) ∈ capitals := by decide
  obtain ⟨low, high⟩ := isUpper_iff.mp h
  have := all ⟨c.toNat - 65, by omega⟩
  rw [show 65 + (c.toNat - 65) = c.toNat by omega, Char.ofNat_toNat] at this
  exact this

theorem toLower_eq_self {c : Char} (h : c.isUpper = false) : c.toLower = c :=
  dif_neg (of_decide_eq_false h)

/-- A function that takes each capital as its small letter takes every character as its lower case. -/
theorem apply_toLower {α : Type} {f : Char → α}
    (h : capitals.map (fun c => f c.toLower) = capitals.map f) (c : Char) :
    f c.toLower = f c := by
  cases hc : c.isUpper with
  | true => exact List.map_inj_left.mp h c (mem_capitals_of_isUpper hc)
  | false => rw [toLower_eq_self hc]

@[simp] theorem isBlank_toLower (c : Char) : isBlank c.toLower = isBlank c :=
  apply_toLower (by decide) c

/-- Only letters are the lower case of another character. -/
theorem eq_of_toLower_eq {c d : Char} (h : c.toLower = d) (hd : d.isAlpha = false) : c = d := by
  have hc : c.isAlpha = false := (apply_toLower (by decide) c).symm.trans (h ▸ hd)
  rw [← h, toLower_eq_self]
  exact Bool.eq_false_iff.mpr fun hupper => Bool.eq_false_iff.mp hc (isAlpha_iff.mpr (.inl hupper))

@[simp] theorem lower_nil : lower [] = [] := rfl

@[simp] theorem lower_cons (c : Char) (text : Text) : lower (c :: text) = c.toLower :: lower text :=
  rfl

@[simp] theorem lower_append (a b : Text) : lower (a ++ b) = lower a ++ lower b := List.map_append

@[simp] theorem length_lower (text : Text) : (lower text).length = text.length := List.length_map _

@[simp] theorem lower_lower (text : Text) : lower (lower text) = lower text := by
  have htwice : ∀ c : Char, c.toLower.toLower = c.toLower := apply_toLower (by decide)
  simp [lower, htwice]

theorem lower_take (n : Nat) (text : Text) : lower (text.take n) = (lower text).take n :=
  List.map_take

theorem isListed_iff {names : List Text} {name : Text} :
    isListed names name = true ↔ ∃ listed ∈ names, lower name = lower listed := by
  rw [isListed, List.any_eq_true]
  simp only [sameName, beq_iff_eq]

end Phrasebook.Text
