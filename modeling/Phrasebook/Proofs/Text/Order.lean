import Mathlib.Data.List.Lex
import Mathlib.Data.String.Basic
import Phrasebook.Text.Basic

/-!
# The order of texts

Texts are compared character by character. UTF-8 keeps that order: of two characters the smaller one
has the smaller bytes, and it shows in bytes that both of them have.
-/

namespace Phrasebook.Text

/-- The bytes of the text in UTF-8. -/
def utf8 (text : Text) : List UInt8 := text.flatMap String.utf8EncodeChar

@[simp] theorem utf8_cons (c : Char) (text : Text) :
    utf8 (c :: text) = String.utf8EncodeChar c ++ utf8 text := List.flatMap_cons

theorem ofNat_cons_lt {m n : Nat} (hm : m < 256) (hn : n < 256) {s t : List UInt8} :
    UInt8.ofNat m :: s < UInt8.ofNat n :: t ↔ m < n ∨ m = n ∧ s < t := by
  rw [List.cons_lt_cons_iff, UInt8.lt_iff_toNat_lt, ← UInt8.toNat_inj]
  simp [Nat.mod_eq_of_lt, hm, hn]

/-- Whatever follows two characters, the order of their bytes is decided inside them. -/
theorem utf8EncodeChar_append_lt {c d : Char} (h : c < d) (s t : List UInt8) :
    String.utf8EncodeChar c ++ s < String.utf8EncodeChar d ++ t := by
  have hlt : c.val.toNat < d.val.toNat := h
  have hd : d.val.toNat < 0x110000 := by
    have := d.valid
    simp only [UInt32.isValidChar, Nat.isValidChar] at this
    omega
  unfold String.utf8EncodeChar
  dsimp only
  generalize c.val.toNat = m at hlt
  generalize d.val.toNat = n at hlt hd
  -- The digits in base 64 are taken off one behind another.
  have digits : ∀ k < 0x110000, k / 4096 = k / 64 / 64 ∧ k / 262144 = k / 64 / 64 / 64 ∧
      k / 262144 % 8 = k / 262144 := by
    intro k hk
    refine ⟨(Nat.div_div_eq_div_mul k 64 64).symm, ?_, by omega⟩
    rw [Nat.div_div_eq_div_mul, Nat.div_div_eq_div_mul]
  have hm := digits m (by omega)
  have hn := digits n hd
  -- One case for each pair of lengths; the tails `s` and `t` never come to be compared.
  by_cases hst : s < t <;> split_ifs <;>
    simp (disch := omega) only [List.cons_append, List.nil_append, ofNat_cons_lt, hst, and_true,
      and_false, or_false] <;> omega

theorem nil_lt_utf8_cons (c : Char) (text : Text) : [] < utf8 (c :: text) := by
  rw [utf8_cons]
  unfold String.utf8EncodeChar
  dsimp only
  split_ifs <;> exact List.nil_lt_cons _ _

theorem utf8_lt_utf8_of_lt {a b : Text} (h : a < b) : utf8 a < utf8 b := by
  induction h with
  | nil => exact nil_lt_utf8_cons _ _
  | cons _ ih =>
    rw [utf8_cons, utf8_cons]
    exact List.append_left_lt ih
  | rel hlt =>
    rw [utf8_cons, utf8_cons]
    exact utf8EncodeChar_append_lt hlt _ _

/-- The order of texts is that of their bytes. -/
theorem utf8_lt_utf8 {a b : Text} : utf8 a < utf8 b ↔ a < b := by
  refine ⟨fun h => ?_, utf8_lt_utf8_of_lt⟩
  rcases lt_trichotomy a b with hlt | rfl | hgt
  · exact hlt
  · exact absurd h (List.lt_irrefl _)
  · exact absurd (utf8_lt_utf8_of_lt hgt) (List.lt_asymm h)

end Phrasebook.Text
