import Mathlib.Data.List.Forall2
import Mathlib.Tactic.Ring
import Phrasebook.Escape

/-!
# Spellings of a character

A literal spells a character by itself or by one of its numeric escapes. Decoding takes off one
spelling at a time, whatever stands behind it, so spellings may be mixed freely.
-/

namespace Phrasebook.Escape

open CodePoint

/-! ## Digits -/

/-- `c` is the digit `d`. The case of a letter is free. -/
def IsDigit (base : Nat) (c : Char) (d : Nat) : Prop :=
  d < base ∧ (c = d.digitChar ∨ c = d.digitChar.toUpper)

/-- The digits write `n` in positional notation, perhaps with zeros in front. -/
inductive Writes (base : Nat) : Text → Nat → Prop where
  | nil : Writes base [] 0
  | cons {c : Char} {d n : Nat} {rest : Text} (digit : IsDigit base c d) (later : Writes base rest n) :
    Writes base (c :: rest) (d * base ^ rest.length + n)

theorem hexDigit?_of_isDigit {c : Char} {d : Nat} (h : IsDigit 16 c d) : hexDigit? c = some d := by
  obtain ⟨hd, hc⟩ := h
  have hall : ∀ d < 16, hexDigit? d.digitChar = some d ∧ hexDigit? d.digitChar.toUpper = some d := by
    decide
  rcases hc with rfl | rfl
  · exact (hall d hd).1
  · exact (hall d hd).2

theorem octalDigit?_of_isDigit {c : Char} {d : Nat} (h : IsDigit 8 c d) : octalDigit? c = some d := by
  obtain ⟨hd, hc⟩ := h
  have hall : ∀ d < 8, octalDigit? d.digitChar = some d ∧ octalDigit? d.digitChar.toUpper = some d := by
    decide
  rcases hc with rfl | rfl
  · exact (hall d hd).1
  · exact (hall d hd).2

theorem isDigit_of_writes {base n : Nat} {digits : Text} (h : Writes base digits n) :
    ∀ c ∈ digits, ∃ d, IsDigit base c d := by
  induction h with
  | nil => simp
  | cons digit _ ih =>
    rw [List.forall_mem_cons]
    exact ⟨⟨_, digit⟩, ih⟩

/-- No brace is a hex digit. -/
theorem ne_of_isDigit {c : Char} {d : Nat} (h : IsDigit 16 c d) : c ≠ '\x7b' ∧ c ≠ '\x7d' := by
  have hdigit := hexDigit?_of_isDigit h
  constructor
  · rintro rfl
    have : hexDigit? '\x7b' = none := by decide
    simp [this] at hdigit
  · rintro rfl
    have : hexDigit? '\x7d' = none := by decide
    simp [this] at hdigit

theorem hexValueFrom?_of_writes {digits : Text} {n : Nat} (h : Writes 16 digits n) (acc : Nat) :
    hexValueFrom? acc digits = some (acc * 16 ^ digits.length + n) := by
  induction h generalizing acc with
  | nil => simp [hexValueFrom?]
  | @cons c d n rest digit _ ih =>
    have hvalue : (acc * 16 + d) * 16 ^ rest.length + n =
        acc * 16 ^ (rest.length + 1) + (d * 16 ^ rest.length + n) := by ring
    simp [hexValueFrom?, hexDigit?_of_isDigit digit, ih, hvalue]

theorem hexValue?_of_writes {digits : Text} {n : Nat} (h : Writes 16 digits n) :
    hexValue? digits = some n := by
  unfold hexValue?
  rw [hexValueFrom?_of_writes h]
  simp

theorem fixedHex?_of_writes {digits : Text} {n count : Nat} (h : Writes 16 digits n)
    (hcount : digits.length = count) (behind : Text) :
    fixedHex? count (digits ++ behind) = some n := by
  have htake : (digits ++ behind).take count = digits := List.take_left' hcount
  unfold fixedHex?
  simp [htake, hcount, hexValue?_of_writes h]

/-! ## Spellings -/

/-- A text that stands for the character. -/
inductive Spells (dialect : Dialect) (c : Char) : Text → Prop where
  | plain (h : c ≠ '\\') : Spells dialect c [c]
  | octal {digits : Text} (h : Writes 8 digits c.toNat) (three : digits.length = 3)
    (byte : c.toNat ≤ 0xFF) : Spells dialect c ("\\" ++ digits)
  | two {digits : Text} (h : Writes 16 digits c.toNat) (two : digits.length = 2) :
    Spells dialect c ("\\x" ++ digits)
  | four {digits : Text} (h : Writes 16 digits c.toNat) (four : digits.length = 4) :
    Spells dialect c ("\\u" ++ digits)
  /-- The two halves of UTF-16. -/
  | pair {high low : Text} (wide : 0xFFFF < c.toNat)
    (hhigh : Writes 16 high (0xD800 + (c.toNat - 0x10000) / 0x400)) (fourHigh : high.length = 4)
    (hlow : Writes 16 low (0xDC00 + (c.toNat - 0x10000) % 0x400)) (fourLow : low.length = 4) :
    Spells dialect c ("\\u" ++ high ++ "\\u" ++ low)
  | braced {digits : Text} (h : Writes 16 digits c.toNat) (least : 1 ≤ digits.length)
    (most : digits.length ≤ 6) : Spells dialect c ("\\u\x7b" ++ digits ++ "\x7d")
  | eight {digits : Text} (go : dialect = .go) (h : Writes 16 digits c.toNat)
    (eight : digits.length = 8) : Spells dialect c ("\\U" ++ digits)

theorem scalar?_toNat (c : Char) : scalar? c.toNat = some c := by
  have hvalid : c.toNat.isValidChar := c.valid
  unfold scalar?
  rw [if_pos hvalid, Char.ofNat_toNat]

theorem not_isValidChar_of_isHighSurrogate {n : Nat} (h : isHighSurrogate n = true) :
    ¬ n.isValidChar := by
  simp [isHighSurrogate] at h
  unfold Nat.isValidChar
  omega

section

variable {dialect : Dialect} {c : Char} {digits : Text}

theorem decode_plain (h : c ≠ '\\') (behind : Text) :
    decode dialect (c :: behind) = c :: decode dialect behind := by
  rw [decode, if_neg h]

/-- An escape that is read to its end is replaced, and what stands behind it is decoded next. -/
theorem decode_escape {form : Text} {behind : Text}
    (h : read? dialect (form ++ behind) = some ⟨c, form.length⟩) :
    decode dialect ('\\' :: form ++ behind) = c :: decode dialect behind := by
  rw [List.cons_append, decode, if_pos rfl, h]
  simp

theorem octalFrom_of_writes {n : Nat} (h : Writes 8 digits n) (value : Nat)
    (byte : value * 8 ^ digits.length + n ≤ 0xFF) (width : Nat) (behind : Text) :
    octalFrom digits.length value width (digits ++ behind) =
      ⟨Char.ofNat (value * 8 ^ digits.length + n), width + digits.length⟩ := by
  induction h generalizing value width with
  | nil =>
    cases behind <;> simp [octalFrom]
  | @cons c d n rest digit _ ih =>
    have hvalue : (value * 8 + d) * 8 ^ rest.length + n =
        value * 8 ^ (rest.length + 1) + (d * 8 ^ rest.length + n) := by ring
    rw [List.length_cons] at byte ⊢
    have hsmall : value * 8 + d ≤ (value * 8 + d) * 8 ^ rest.length :=
      Nat.le_mul_of_pos_right _ (Nat.pow_pos (by decide))
    rw [List.cons_append, octalFrom.eq_def]
    simp only [octalDigit?_of_isDigit digit]
    rw [if_pos (by omega), ih _ (by omega), hvalue]
    simp only [Escape.mk.injEq, true_and]
    omega

theorem read?_of_octalDigit? {d : Char} (h : (octalDigit? d).isSome = true) (rest : Text) :
    read? dialect (d :: rest) = some (octal (d :: rest)) := by
  unfold read?
  split <;> simp_all [octalDigit?]

theorem read?_octal (h : Writes 8 digits c.toNat) (three : digits.length = 3)
    (byte : c.toNat ≤ 0xFF) (behind : Text) :
    read? dialect (digits ++ behind) = some ⟨c, digits.length⟩ := by
  have hoctal := octalFrom_of_writes h 0 (by omega) 0 behind
  obtain ⟨d, digits, rfl⟩ := List.exists_cons_of_length_pos (by omega : 0 < digits.length)
  obtain ⟨value, hd⟩ := isDigit_of_writes h d List.mem_cons_self
  have hdigit := octalDigit?_of_isDigit hd
  rw [List.cons_append, read?_of_octalDigit? (by rw [hdigit]; rfl), octal, ← three]
  simpa [Char.ofNat_toNat] using hoctal

theorem read?_two (h : Writes 16 digits c.toNat) (two : digits.length = 2) (behind : Text) :
    read? dialect ('x' :: digits ++ behind) = some ⟨c, digits.length + 1⟩ := by
  have hread : read? dialect ('x' :: digits ++ behind) = fixed? 2 (digits ++ behind) := rfl
  rw [hread, fixed?, fixedHex?_of_writes h two]
  simp [scalar?_toNat, two]

theorem read?_eight (go : dialect = .go) (h : Writes 16 digits c.toNat) (eight : digits.length = 8)
    (behind : Text) : read? dialect ('U' :: digits ++ behind) = some ⟨c, digits.length + 1⟩ := by
  have hread : read? .go ('U' :: digits ++ behind) = fixed? 8 (digits ++ behind) := rfl
  rw [go, hread, fixed?, fixedHex?_of_writes h eight]
  simp [scalar?_toNat, eight]

/-- Four hex digits are not taken for a braced escape. -/
theorem read?_u {n : Nat} (h : Writes 16 digits n) (four : digits.length = 4) (behind : Text) :
    read? dialect ('u' :: digits ++ behind) = utf16? (digits ++ behind) := by
  obtain ⟨d, digits, rfl⟩ := List.exists_cons_of_length_pos (by omega : 0 < digits.length)
  obtain ⟨value, hd⟩ := isDigit_of_writes h d List.mem_cons_self
  have hbrace := (ne_of_isDigit hd).1
  simp only [List.cons_append]
  rw [read?.eq_3]
  simpa using hbrace

theorem utf16?_of_scalar {n : Nat} {text : Text} (h : fixedHex? 4 text = some n)
    (hn : scalar? n = some c) : utf16? text = some ⟨c, 5⟩ := by
  unfold utf16?
  rw [h, Option.bind_some, hn]

theorem read?_four (h : Writes 16 digits c.toNat) (four : digits.length = 4) (behind : Text) :
    read? dialect ('u' :: digits ++ behind) = some ⟨c, digits.length + 1⟩ := by
  rw [read?_u h four, utf16?_of_scalar (fixedHex?_of_writes h four behind) (scalar?_toNat c), four]

theorem utf16?_of_surrogates {n m : Nat} {text : Text} (h : fixedHex? 4 text = some n)
    (hn : isHighSurrogate n = true) (hm : low? (text.drop 4) = some m)
    (hc : scalar? (pairValue n m) = some c) : utf16? text = some ⟨c, 11⟩ := by
  have hnone : scalar? n = none := by
    unfold scalar?
    rw [if_neg (not_isValidChar_of_isHighSurrogate hn)]
  unfold utf16?
  rw [h, Option.bind_some, hnone]
  simp only
  rw [if_pos hn, hm, Option.bind_some, hc, Option.map_some]

/-- The halves of UTF-16 are surrogates, and together they give the character back. -/
theorem surrogates_of_wide (wide : 0xFFFF < c.toNat) {n m : Nat}
    (hn : 0xD800 + (c.toNat - 0x10000) / 0x400 = n) (hm : 0xDC00 + (c.toNat - 0x10000) % 0x400 = m) :
    isHighSurrogate n = true ∧ isLowSurrogate m = true ∧ pairValue n m = c.toNat := by
  have hvalid : c.toNat.isValidChar := c.valid
  unfold Nat.isValidChar at hvalid
  unfold isHighSurrogate isLowSurrogate pairValue
  simp only [Bool.and_eq_true, decide_eq_true_eq]
  omega

theorem read?_surrogates {high low : Text} {n m : Nat} (hhigh : Writes 16 high n)
    (fourHigh : high.length = 4) (hn : isHighSurrogate n = true) (hlow : Writes 16 low m)
    (fourLow : low.length = 4) (hm : isLowSurrogate m = true) (hc : scalar? (pairValue n m) = some c)
    (behind : Text) : read? dialect ('u' :: high ++ '\\' :: 'u' :: low ++ behind) = some ⟨c, 11⟩ := by
  have hdrop : (high ++ '\\' :: 'u' :: (low ++ behind)).drop 4 = '\\' :: 'u' :: (low ++ behind) :=
    List.drop_left' fourHigh
  have hlow? : low? ('\\' :: 'u' :: (low ++ behind)) = some m := by
    rw [low?, fixedHex?_of_writes hlow fourLow]
    simp [hm]
  have htext : 'u' :: high ++ '\\' :: 'u' :: low ++ behind =
      'u' :: high ++ '\\' :: 'u' :: (low ++ behind) := by simp
  rw [htext, read?_u hhigh fourHigh]
  exact utf16?_of_surrogates (fixedHex?_of_writes hhigh fourHigh _) hn (by rw [hdrop, hlow?]) hc

theorem read?_pair {high low : Text} (wide : 0xFFFF < c.toNat)
    (hhigh : Writes 16 high (0xD800 + (c.toNat - 0x10000) / 0x400)) (fourHigh : high.length = 4)
    (hlow : Writes 16 low (0xDC00 + (c.toNat - 0x10000) % 0x400)) (fourLow : low.length = 4)
    (behind : Text) :
    read? dialect ('u' :: high ++ '\\' :: 'u' :: low ++ behind) = some ⟨c, 11⟩ := by
  obtain ⟨hn, hm, hpair⟩ := surrogates_of_wide wide rfl rfl
  exact read?_surrogates hhigh fourHigh hn hlow fourLow hm (by rw [hpair, scalar?_toNat]) behind

theorem read?_braced (h : Writes 16 digits c.toNat) (least : 1 ≤ digits.length)
    (most : digits.length ≤ 6) (behind : Text) :
    read? dialect ('u' :: '\x7b' :: digits ++ '\x7d' :: behind) = some ⟨c, digits.length + 3⟩ := by
  have htake : (digits ++ '\x7d' :: behind).takeWhile (· ≠ '\x7d') = digits := by
    rw [List.takeWhile_append_of_pos, List.takeWhile_cons_of_neg (by simp), List.append_nil]
    intro d hd
    obtain ⟨value, hdigit⟩ := isDigit_of_writes h d hd
    simpa using (ne_of_isDigit hdigit).2
  have hread : read? dialect ('u' :: '\x7b' :: digits ++ '\x7d' :: behind) =
      braced? (digits ++ '\x7d' :: behind) := rfl
  rw [hread, braced?]
  simp only [htake]
  rw [if_pos (by simp; omega), hexValue?_of_writes h]
  simp [scalar?_toNat]

/-- One spelling is taken off, whatever stands behind it. -/
theorem decode_spells {text : Text} (h : Spells dialect c text) (behind : Text) :
    decode dialect (text ++ behind) = c :: decode dialect behind := by
  cases h with
  | plain h => exact decode_plain h behind
  | octal h three byte => exact decode_escape (read?_octal h three byte behind)
  | two h two => exact decode_escape (read?_two h two behind)
  | four h four => exact decode_escape (read?_four h four behind)
  | @pair high low wide hhigh fourHigh hlow fourLow =>
    have htext : ("\\u" ++ high ++ "\\u" ++ low : Text) = '\\' :: ('u' :: high ++ '\\' :: 'u' :: low) := by
      simp
    have hlength : ('u' :: high ++ '\\' :: 'u' :: low).length = 11 := by
      simp
      omega
    rw [htext]
    apply decode_escape
    rw [hlength]
    exact read?_pair wide hhigh fourHigh hlow fourLow behind
  | @braced digits h least most =>
    have htext : ("\\u\x7b" ++ digits ++ "\x7d" : Text) =
        '\\' :: ('u' :: '\x7b' :: digits ++ ['\x7d']) := by
      simp
    have hlength : ('u' :: '\x7b' :: digits ++ ['\x7d']).length = digits.length + 3 := by
      simp
    rw [htext]
    apply decode_escape
    rw [hlength, List.append_assoc]
    exact read?_braced h least most behind
  | eight go h eight => exact decode_escape (read?_eight go h eight behind)

end

/-- Decoding gives back the characters, however each of them is spelled. -/
theorem decode_flatten {dialect : Dialect} {characters : List Char} {spellings : List Text}
    (h : List.Forall₂ (Spells dialect) characters spellings) :
    decode dialect spellings.flatten = characters := by
  induction h with
  | nil => rw [List.flatten_nil, decode]
  | cons hfirst _ ih => rw [List.flatten_cons, decode_spells hfirst, ih]

/-- An octal escape before a digit, two surrogates, and braces with a zero in front. -/
theorem decode_mixed :
    List.Forall₂ (Spells .go) ['A', '1', '😀', 'é']
        ["\\101", "1", "\\uD83d\\uDE00", "\\u\x7b0E9\x7d"] ∧
      decode .go "\\1011\\uD83d\\uDE00\\u\x7b0E9\x7d" = ['A', '1', '😀', 'é'] := by
  have octal : Writes 8 "101" 65 :=
    .cons (d := 1) (n := 1) ⟨by decide, .inl rfl⟩ (.cons (d := 0) (n := 1) ⟨by decide, .inl rfl⟩
      (.cons (d := 1) (n := 0) ⟨by decide, .inl rfl⟩ .nil))
  have hhigh : 0xD800 + ('😀'.toNat - 0x10000) / 0x400 = 0xD83D := by decide
  have hlow : 0xDC00 + ('😀'.toNat - 0x10000) % 0x400 = 0xDE00 := by decide
  have high : Writes 16 "D83d" 0xD83D :=
    .cons (d := 13) (n := 0x83D) ⟨by decide, .inr rfl⟩
      (.cons (d := 8) (n := 0x3D) ⟨by decide, .inl rfl⟩ (.cons (d := 3) (n := 13) ⟨by decide, .inl rfl⟩
        (.cons (d := 13) (n := 0) ⟨by decide, .inl rfl⟩ .nil)))
  have low : Writes 16 "DE00" 0xDE00 :=
    .cons (d := 13) (n := 0xE00) ⟨by decide, .inr rfl⟩
      (.cons (d := 14) (n := 0) ⟨by decide, .inr rfl⟩ (.cons (d := 0) (n := 0) ⟨by decide, .inl rfl⟩
        (.cons (d := 0) (n := 0) ⟨by decide, .inl rfl⟩ .nil)))
  have braced : Writes 16 "0E9" 0xE9 :=
    .cons (d := 0) (n := 0xE9) ⟨by decide, .inl rfl⟩
      (.cons (d := 14) (n := 9) ⟨by decide, .inr rfl⟩ (.cons (d := 9) (n := 0) ⟨by decide, .inl rfl⟩
        .nil))
  have pair : Spells .go '😀' "\\uD83d\\uDE00" :=
    .pair (by decide) (hhigh ▸ high) rfl (hlow ▸ low) rfl
  have zero : Spells .go 'é' "\\u\x7b0E9\x7d" :=
    @Spells.braced .go 'é' "0E9" braced (by decide) (by decide)
  have spelled : List.Forall₂ (Spells .go) ['A', '1', '😀', 'é']
      ["\\101", "1", "\\uD83d\\uDE00", "\\u\x7b0E9\x7d"] :=
    .cons (.octal octal rfl (by decide)) (.cons (.plain (by decide))
      (.cons pair (.cons zero .nil)))
  exact ⟨spelled, decode_flatten spelled⟩

end Phrasebook.Escape
