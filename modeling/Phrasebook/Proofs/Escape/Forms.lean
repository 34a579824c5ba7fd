import Phrasebook.Proofs.Escape.Spelling

/-!
# The forms of a numeric escape

What names a code point behind a backslash, and that the reader takes the longest such form there. Only
octal digits can be taken in more than one length.
-/

namespace Phrasebook.Escape

open CodePoint Text

/-- The text behind a backslash is a numeric escape, and `n` is the code point that it names. -/
inductive Names (dialect : Dialect) : Text → Nat → Prop where
  | octal {digits : Text} {n : Nat} (h : Writes 8 digits n) (least : 1 ≤ digits.length)
    (most : digits.length ≤ 3) (byte : n ≤ 0xFF) : Names dialect digits n
  | two {digits : Text} {n : Nat} (h : Writes 16 digits n) (two : digits.length = 2) :
    Names dialect ('x' :: digits) n
  | four {digits : Text} {n : Nat} (h : Writes 16 digits n) (four : digits.length = 4)
    (whole : ¬ (0xD800 ≤ n ∧ n ≤ 0xDFFF)) : Names dialect ('u' :: digits) n
  | pair {high low : Text} {n m : Nat} (hhigh : Writes 16 high n) (fourHigh : high.length = 4)
    (highSurrogate : isHighSurrogate n = true) (hlow : Writes 16 low m) (fourLow : low.length = 4)
    (lowSurrogate : isLowSurrogate m = true) :
    Names dialect ('u' :: high ++ '\\' :: 'u' :: low) (pairValue n m)
  | braced {digits : Text} {n : Nat} (h : Writes 16 digits n) (least : 1 ≤ digits.length)
    (most : digits.length ≤ 6) (valid : n.isValidChar) :
    Names dialect ('u' :: '\x7b' :: digits ++ ['\x7d']) n
  | eight {digits : Text} {n : Nat} (go : dialect = .go) (h : Writes 16 digits n)
    (eight : digits.length = 8) (valid : n.isValidChar) : Names dialect ('U' :: digits) n

/-- The text begins with a numeric escape, and with no longer one. -/
structure Begins (dialect : Dialect) (form : Text) (n : Nat) (text : Text) : Prop where
  names : Names dialect form n
  front : form <+: text
  longest : ∀ other m, Names dialect other m → other <+: text → other.length ≤ form.length

/-! ## Digits and their number -/

theorem isDigit_of_hexDigit? {c : Char} {d : Nat} (h : hexDigit? c = some d) : IsDigit 16 c d := by
  have hall : ∀ k < 0x80, ∀ d ∈ hexDigit? (Char.ofNat k), d < 16 ∧
      (Char.ofNat k = d.digitChar ∨ Char.ofNat k = d.digitChar.toUpper) := by decide
  have hsmall : c.toNat < 0x80 := by
    by_contra hlarge
    have hnone : ∀ a b : Char, b.toNat < 0x80 → ¬ (a ≤ c ∧ c ≤ b) := by
      rintro a b hb ⟨-, hle⟩
      have : c.toNat ≤ b.toNat := hle
      omega
    rw [hexDigit?, if_neg (hnone _ _ (by decide)), if_neg (hnone _ _ (by decide)),
      if_neg (hnone _ _ (by decide))] at h
    cases h
  have hdigit := hall c.toNat hsmall d (by rwa [Char.ofNat_toNat])
  rwa [Char.ofNat_toNat] at hdigit

theorem IsDigit.hex {base : Nat} {c : Char} {d : Nat} (hbase : base ≤ 16) (h : IsDigit base c d) :
    IsDigit 16 c d := ⟨h.1.trans_le hbase, h.2⟩

theorem IsDigit.eq {base : Nat} {c : Char} {d e : Nat} (hbase : base ≤ 16) (h : IsDigit base c d)
    (h' : IsDigit base c e) : d = e :=
  Option.some.inj ((hexDigit?_of_isDigit (h.hex hbase)).symm.trans (hexDigit?_of_isDigit (h'.hex hbase)))

theorem isDigit_of_octalDigit? {c : Char} {d : Nat} (h : octalDigit? c = some d) : IsDigit 8 c d := by
  unfold octalDigit? at h
  split at h
  · rename_i hc
    cases h
    have hlow : '0'.toNat ≤ c.toNat := hc.1
    have hhigh : c.toNat ≤ '7'.toNat := hc.2
    have hseven : '7'.toNat = '0'.toNat + 7 := rfl
    have hhex : hexDigit? c = some (c.toNat - '0'.toNat) :=
      if_pos ⟨hc.1, Char.le_trans hc.2 (by decide)⟩
    exact ⟨by omega, (isDigit_of_hexDigit? hhex).2⟩
  · cases h

section

variable {base n m : Nat} {digits : Text}

theorem Writes.eq (hbase : base ≤ 16) (h : Writes base digits n) (h' : Writes base digits m) :
    n = m := by
  induction h generalizing m with
  | nil =>
    cases h'
    rfl
  | cons digit _ ih =>
    cases h' with
    | cons digit' later' => rw [digit.eq hbase digit', ih later']

theorem Writes.lt (h : Writes base digits n) : n < base ^ digits.length := by
  induction h with
  | nil => exact Nat.one_pos
  | @cons c d n rest digit _ ih =>
    calc d * base ^ rest.length + n < (d + 1) * base ^ rest.length := by rw [Nat.succ_mul]; omega
      _ ≤ base * base ^ rest.length := Nat.mul_le_mul_right _ digit.1
      _ = base ^ (c :: rest).length := by rw [List.length_cons, Nat.pow_succ, Nat.mul_comm]

theorem exists_writes_of_hexValueFrom? {acc value : Nat} (h : hexValueFrom? acc digits = some value) :
    ∃ n, Writes 16 digits n ∧ value = acc * 16 ^ digits.length + n := by
  induction digits generalizing acc with
  | nil =>
    cases h
    exact ⟨0, .nil, by simp⟩
  | cons c rest ih =>
    obtain ⟨d, hdigit, hrest⟩ := Option.bind_eq_some_iff.mp h
    obtain ⟨n, hn, rfl⟩ := ih hrest
    refine ⟨_, .cons (isDigit_of_hexDigit? hdigit) hn, ?_⟩
    rw [List.length_cons]
    ring

theorem writes_of_hexValue? (h : hexValue? digits = some n) : Writes 16 digits n := by
  obtain ⟨m, hm, rfl⟩ := exists_writes_of_hexValueFrom? h
  simpa using hm

theorem exists_writes_of_fixedHex? {count : Nat} {text : Text} (h : fixedHex? count text = some n) :
    ∃ digits behind, text = digits ++ behind ∧ digits.length = count ∧ Writes 16 digits n := by
  unfold fixedHex? at h
  simp only at h
  split at h
  · rename_i hlength
    exact ⟨_, _, (List.take_append_drop count text).symm, hlength, writes_of_hexValue? h⟩
  · cases h

/-! ## Octal digits -/

/-- What is taken are octal digits whose number fits into a byte, if the digits before them did. -/
theorem exists_writes_octalFrom {value : Nat} (byte : value ≤ 0xFF) (count width : Nat) (text : Text) :
    ∃ digits behind n, text = digits ++ behind ∧ Writes 8 digits n ∧ digits.length ≤ count ∧
      value * 8 ^ digits.length + n ≤ 0xFF ∧
      octalFrom count value width text =
        ⟨Char.ofNat (value * 8 ^ digits.length + n), width + digits.length⟩ := by
  induction text generalizing count value width with
  | nil => exact ⟨[], [], 0, rfl, .nil, Nat.zero_le _, by simpa using byte, by cases count <;> simp [octalFrom]⟩
  | cons c rest ih =>
    rw [octalFrom.eq_def]
    simp only
    split
    · rename_i count digit hdigit
      split
      · rename_i hfits
        obtain ⟨digits, behind, n, rfl, hn, hcount, hbyte, hescape⟩ := ih hfits count (width + 1)
        have hvalue : (value * 8 + digit) * 8 ^ digits.length + n =
            value * 8 ^ (digits.length + 1) + (digit * 8 ^ digits.length + n) := by ring
        refine ⟨c :: digits, behind, _, rfl, .cons (isDigit_of_octalDigit? hdigit) hn,
          Nat.succ_le_succ hcount, ?_, ?_⟩
        · rwa [List.length_cons, ← hvalue]
        · rw [hescape, hvalue, List.length_cons, Nat.add_right_comm, Nat.add_assoc]
      · exact ⟨[], _, 0, rfl, .nil, Nat.zero_le _, by simpa using byte, by simp⟩
    · exact ⟨[], _, 0, rfl, .nil, Nat.zero_le _, by simpa using byte, by simp⟩

/-- No octal digits that would still fit are left. -/
theorem le_width_octalFrom (h : Writes 8 digits n) (count value : Nat) (hcount : digits.length ≤ count)
    (byte : value * 8 ^ digits.length + n ≤ 0xFF) (width : Nat) (behind : Text) :
    width + digits.length ≤ (octalFrom count value width (digits ++ behind)).width := by
  induction h generalizing count value width with
  | nil =>
    obtain ⟨taken, -, n, -, -, -, -, hescape⟩ :=
      exists_writes_octalFrom (by simpa using byte : value ≤ 0xFF) count width behind
    rw [List.nil_append, hescape]
    exact Nat.le_add_right width _
  | @cons c d n rest digit _ ih =>
    rw [List.length_cons] at hcount byte ⊢
    cases count with
    | zero => omega
    | succ count =>
      have hvalue : (value * 8 + d) * 8 ^ rest.length + n =
          value * 8 ^ (rest.length + 1) + (d * 8 ^ rest.length + n) := by ring
      have hfits : value * 8 + d ≤ (value * 8 + d) * 8 ^ rest.length :=
        Nat.le_mul_of_pos_right _ (Nat.pow_pos (by decide))
      have hlater := ih count _ (Nat.le_of_succ_le_succ hcount) (hvalue.trans_le byte) (width + 1)
      rw [List.cons_append, octalFrom.eq_def]
      simp only [octalDigit?_of_isDigit digit]
      rw [if_pos (by omega)]
      omega

end

/-! ## What the reader takes -/

section

variable {dialect : Dialect} {form behind text : Text} {n : Nat} {escape : Escape}

theorem toNat_ofNat (h : n.isValidChar) : (Char.ofNat n).toNat = n := by
  rw [Char.ofNat, dif_pos h]
  rfl

theorem scalar?_eq_some_iff {c : Char} : scalar? n = some c ↔ n.isValidChar ∧ Char.ofNat n = c := by
  unfold scalar?
  split <;> simp_all

theorem Names.isValidChar (h : Names dialect form n) : n.isValidChar := by
  unfold Nat.isValidChar
  cases h with
  | octal _ _ _ byte => omega
  | two h two =>
    have := h.lt
    rw [two] at this
    omega
  | four h four whole =>
    have := h.lt
    rw [four] at this
    omega
  | pair _ _ highSurrogate _ _ lowSurrogate =>
    unfold isHighSurrogate at highSurrogate
    unfold isLowSurrogate at lowSurrogate
    unfold pairValue
    simp only [Bool.and_eq_true, decide_eq_true_eq] at highSurrogate lowSurrogate
    omega
  | braced _ _ _ valid => exact valid
  | eight _ _ _ valid => exact valid

theorem exists_names_of_fixed? {mark : Char} {count : Nat} {digits : Text}
    (names : ∀ {form n}, Writes 16 form n → form.length = count → n.isValidChar →
      Names dialect (mark :: form) n)
    (h : fixed? count digits = some escape) :
    ∃ form behind n, mark :: digits = form ++ behind ∧ Names dialect form n ∧
      escape = ⟨Char.ofNat n, form.length⟩ := by
  obtain ⟨c, hvalue, rfl⟩ := Option.map_eq_some_iff.mp h
  obtain ⟨n, hhex, hc⟩ := Option.bind_eq_some_iff.mp hvalue
  obtain ⟨hvalid, rfl⟩ := scalar?_eq_some_iff.mp hc
  obtain ⟨form, behind, rfl, hlength, hwrites⟩ := exists_writes_of_fixedHex? hhex
  exact ⟨mark :: form, behind, n, rfl, names hwrites hlength hvalid, by rw [List.length_cons, hlength]⟩

theorem exists_names_of_braced? {rest : Text} (h : braced? rest = some escape) :
    ∃ form behind n, 'u' :: '\x7b' :: rest = form ++ behind ∧ Names dialect form n ∧
      escape = ⟨Char.ofNat n, form.length⟩ := by
  have hwhole := List.takeWhile_append_dropWhile (p := (· ≠ '\x7d')) (l := rest)
  have hhead := List.head?_dropWhile_not (· ≠ '\x7d') rest
  unfold braced? at h
  simp only at h
  split at h
  · rename_i hcounts
    obtain ⟨c, hvalue, rfl⟩ := Option.map_eq_some_iff.mp h
    obtain ⟨n, hhex, hc⟩ := Option.bind_eq_some_iff.mp hvalue
    obtain ⟨hvalid, rfl⟩ := scalar?_eq_some_iff.mp hc
    generalize rest.takeWhile (· ≠ '\x7d') = digits at hwhole hcounts hhex ⊢
    cases hlater : rest.dropWhile (· ≠ '\x7d') with
    | nil =>
      rw [hlater, List.append_nil] at hwhole
      rw [hwhole] at hcounts
      omega
    | cons d later =>
      rw [hlater] at hwhole hhead
      obtain rfl : d = '\x7d' := by simpa using hhead
      refine ⟨'u' :: '\x7b' :: digits ++ ['\x7d'], later, n, by simp [← hwhole], ?_, by simp⟩
      exact .braced (writes_of_hexValue? hhex) hcounts.2.1 hcounts.2.2 hvalid
  · cases h

theorem exists_names_of_utf16? {digits : Text} (h : utf16? digits = some escape) :
    ∃ form behind n, 'u' :: digits = form ++ behind ∧ Names dialect form n ∧
      escape = ⟨Char.ofNat n, form.length⟩ := by
  obtain ⟨n, hhigh, hescape⟩ := Option.bind_eq_some_iff.mp h
  obtain ⟨high, more, rfl, fourHigh, hwrites⟩ := exists_writes_of_fixedHex? hhigh
  rw [List.drop_left' fourHigh] at hescape
  split at hescape
  · rename_i c hc
    cases hescape
    obtain ⟨hvalid, rfl⟩ := scalar?_eq_some_iff.mp hc
    have hwhole : ¬ (0xD800 ≤ n ∧ n ≤ 0xDFFF) := by
      unfold Nat.isValidChar at hvalid
      omega
    exact ⟨'u' :: high, more, n, rfl, .four hwrites fourHigh hwhole, by rw [List.length_cons, fourHigh]⟩
  split at hescape
  · rename_i highSurrogate
    obtain ⟨c, hpair, rfl⟩ := Option.map_eq_some_iff.mp hescape
    obtain ⟨m, hlow, hc⟩ := Option.bind_eq_some_iff.mp hpair
    obtain ⟨-, rfl⟩ := scalar?_eq_some_iff.mp hc
    unfold low? at hlow
    split at hlow
    · obtain ⟨hlow, lowSurrogate⟩ := Option.filter_eq_some_iff.mp hlow
      obtain ⟨low, behind, rfl, fourLow, hwrites'⟩ := exists_writes_of_fixedHex? hlow
      refine ⟨'u' :: high ++ '\\' :: 'u' :: low, behind, _, by simp,
        .pair hwrites fourHigh highSurrogate hwrites' fourLow lowSurrogate, ?_⟩
      simp [fourHigh, fourLow]
    · cases hlow
  · cases hescape

theorem exists_names_of_octal {c : Char} {rest : Text} (h : (octalDigit? c).isSome = true) :
    ∃ form behind n, c :: rest = form ++ behind ∧ Names dialect form n ∧
      octal (c :: rest) = ⟨Char.ofNat n, form.length⟩ := by
  obtain ⟨d, hd⟩ := Option.isSome_iff_exists.mp h
  have hdigit := isDigit_of_octalDigit? hd
  have hone : Writes 8 [c] d := by simpa using Writes.cons hdigit .nil
  have hsmall := hdigit.1
  have hleast := le_width_octalFrom hone 3 0 (by simp) (by simp; omega) 0 rest
  obtain ⟨form, behind, n, hwhole, hwrites, hmost, hbyte, hescape⟩ :=
    exists_writes_octalFrom (Nat.zero_le _) 3 0 (c :: rest)
  rw [List.singleton_append, hescape] at hleast
  simp only [Nat.zero_mul, Nat.zero_add] at hleast hbyte hescape
  exact ⟨form, behind, n, hwhole, .octal hwrites hleast hmost hbyte, hescape⟩

/-- What is read is the text of a numeric escape. -/
theorem exists_names_of_read? (h : read? dialect text = some escape) :
    ∃ form behind n, text = form ++ behind ∧ Names dialect form n ∧
      escape = ⟨Char.ofNat n, form.length⟩ := by
  unfold read? at h
  split at h
  · exact exists_names_of_fixed? (fun hwrites hlength _ => .two hwrites hlength) h
  · exact exists_names_of_braced? h
  · exact exists_names_of_utf16? h
  · split at h
    · rename_i go
      exact exists_names_of_fixed? (.eight go) h
    · cases h
  · split at h
    · rename_i hdigit
      cases h
      exact exists_names_of_octal hdigit
    · cases h
  · cases h

/-- At the text of a numeric escape one is read, and it is this one unless it is longer. -/
theorem read?_of_names (h : Names dialect form n) (behind : Text) :
    ∃ escape, read? dialect (form ++ behind) = some escape ∧ form.length ≤ escape.width ∧
      (escape.width = form.length → escape.char = Char.ofNat n) := by
  -- All forms but the octal one end of themselves.
  have hexact : ∀ width, read? dialect (form ++ behind) = some ⟨Char.ofNat n, width⟩ →
      form.length = width → ∃ escape, read? dialect (form ++ behind) = some escape ∧
        form.length ≤ escape.width ∧ (escape.width = form.length → escape.char = Char.ofNat n) :=
    fun width hread hwidth => ⟨_, hread, hwidth.le, fun _ => rfl⟩
  have hvalid := h.isValidChar
  have hn := toNat_ofNat hvalid
  cases h with
  | octal h least most byte =>
    obtain ⟨taken, later, m, htaken, hwrites, -, -, hescape⟩ :=
      exists_writes_octalFrom (Nat.zero_le _) 3 0 (form ++ behind)
    have hleast := le_width_octalFrom h 3 0 most (by omega) 0 behind
    obtain ⟨d, digits, rfl⟩ := List.exists_cons_of_length_pos least
    obtain ⟨value, hd⟩ := isDigit_of_writes h d List.mem_cons_self
    have hread : read? dialect (d :: digits ++ behind) = some (octal (d :: digits ++ behind)) :=
      read?_of_octalDigit? (by rw [octalDigit?_of_isDigit hd]; rfl) _
    rw [hescape] at hleast
    simp only [Nat.zero_mul, Nat.zero_add] at hleast hescape
    refine ⟨_, hread.trans (congrArg some hescape), hleast, ?_⟩
    intro hwidth
    obtain ⟨rfl, -⟩ := List.append_inj htaken hwidth.symm
    rw [hwrites.eq (by decide) h]
  | two h two =>
    rw [← hn] at h
    exact hexact _ (read?_two h two behind) rfl
  | four h four =>
    rw [← hn] at h
    exact hexact _ (read?_four h four behind) rfl
  | pair hhigh fourHigh highSurrogate hlow fourLow lowSurrogate =>
    refine hexact 11 ?_ (by simp [fourHigh, fourLow])
    exact read?_surrogates hhigh fourHigh highSurrogate hlow fourLow lowSurrogate
      (scalar?_eq_some_iff.mpr ⟨hvalid, rfl⟩) behind
  | @braced digits _ h least most =>
    rw [← hn] at h
    refine hexact (digits.length + 3) ?_ (by simp)
    rw [List.append_assoc]
    exact read?_braced h least most behind
  | eight go h eight =>
    rw [← hn] at h
    exact hexact _ (read?_eight go h eight behind) rfl

/-- The reader takes the longest numeric escape. -/
theorem read?_eq_some_iff :
    read? dialect text = some escape ↔
      ∃ form n, Begins dialect form n text ∧ escape = ⟨Char.ofNat n, form.length⟩ := by
  constructor
  · intro hread
    obtain ⟨form, behind, n, rfl, names, rfl⟩ := exists_names_of_read? hread
    refine ⟨form, n, ⟨names, ⟨behind, rfl⟩, ?_⟩, rfl⟩
    rintro other m hother ⟨later, hlater⟩
    obtain ⟨escape, hescape, hle, -⟩ := read?_of_names hother later
    rw [hlater, hread] at hescape
    cases hescape
    exact hle
  · rintro ⟨form, n, ⟨names, ⟨behind, rfl⟩, longest⟩, rfl⟩
    obtain ⟨escape, hread, hle, hchar⟩ := read?_of_names names behind
    obtain ⟨other, later, m, hother, names', rfl⟩ := exists_names_of_read? hread
    have hwidth : other.length = form.length :=
      Nat.le_antisymm (longest other m names' ⟨later, hother.symm⟩) hle
    rw [hread, ← hchar hwidth, hwidth]

theorem read?_eq_none_iff :
    read? dialect text = none ↔ ∀ form n, Names dialect form n → ¬ form <+: text := by
  constructor
  · rintro hnone form n names ⟨behind, rfl⟩
    obtain ⟨escape, hread, -⟩ := read?_of_names names behind
    rw [hnone] at hread
    cases hread
  · intro hnothing
    rw [Option.eq_none_iff_forall_ne_some]
    intro escape hread
    obtain ⟨form, behind, n, rfl, names, -⟩ := exists_names_of_read? hread
    exact hnothing form n names ⟨behind, rfl⟩

/-! ## Its characters -/

theorem utf8Size_of_isDigit {c : Char} {d : Nat} (h : IsDigit 16 c d) : c.utf8Size = 1 := by
  obtain ⟨hd, hc⟩ := h
  have hall : ∀ d < 16, d.digitChar.utf8Size = 1 ∧ d.digitChar.toUpper.utf8Size = 1 := by decide
  rcases hc with rfl | rfl
  · exact (hall d hd).1
  · exact (hall d hd).2

theorem byteLength_of_writes {base : Nat} (hbase : base ≤ 16) (h : Writes base form n) :
    byteLength form = form.length := by
  induction h with
  | nil => rfl
  | cons digit _ ih =>
    rw [byteLength_cons, utf8Size_of_isDigit (digit.hex hbase), ih, List.length_cons, Nat.add_comm]

theorem not_mem_of_writes {base : Nat} (hbase : base ≤ 16) (h : Writes base form n) : '\\' ∉ form := by
  intro hmem
  obtain ⟨d, hd⟩ := isDigit_of_writes h _ hmem
  cases hexDigit?_of_isDigit (hd.hex hbase)

/-- A numeric escape takes one byte for each character. -/
theorem Names.byteLength_eq (h : Names dialect form n) : byteLength form = form.length := by
  have hmarks : '\\'.utf8Size = 1 ∧ 'x'.utf8Size = 1 ∧ 'u'.utf8Size = 1 ∧ 'U'.utf8Size = 1 ∧
    '\x7b'.utf8Size = 1 ∧ '\x7d'.utf8Size = 1 := ⟨rfl, rfl, rfl, rfl, rfl, rfl⟩
  have hhex : ∀ {digits n}, Writes 16 digits n → byteLength digits = digits.length :=
    byteLength_of_writes (by decide)
  cases h with
  | octal h => exact byteLength_of_writes (by decide) h
  | two h | four h | eight _ h =>
    rw [byteLength_cons, hhex h, List.length_cons, Nat.add_comm]
    simp only [hmarks]
  | pair hhigh _ _ hlow =>
    simp only [List.cons_append, byteLength_cons, byteLength_append, List.length_cons,
      List.length_append, hhex hhigh, hhex hlow, hmarks]
    omega
  | braced h =>
    simp only [List.cons_append, byteLength_cons, byteLength_append, byteLength_nil, List.length_cons,
      List.length_append, List.length_nil, hhex h, hmarks]
    omega

end

end Phrasebook.Escape
