import Phrasebook.Json.Reader
import Phrasebook.Json.Writer
import Phrasebook.Proofs.Escape.Spelling
import Phrasebook.Proofs.Text.Search

/-!
# Written JSON is read back

A value is read back from its text whatever stands behind it, as long as that does not continue a number.
Layout is skipped, escapes are undone and digits are summed up.
-/

namespace Phrasebook.Json

open Text

/-! ## Numbers -/

section

variable {n : Nat} {behind : Text}

theorem isDigit_ofNat : ∀ c ∈ Text.ofNat n, c.isDigit = true :=
  fun _ => Nat.isDigit_of_mem_toDigits (by decide) (by decide)

theorem decimalValue_append (digits : Text) (c : Char) :
    decimalValue (digits ++ [c]) = decimalValue digits * 10 + (c.toNat - '0'.toNat) := by
  simp [decimalValue]

theorem decimalValue_ofNat (n : Nat) : decimalValue (Text.ofNat n) = n := by
  unfold Text.ofNat
  by_cases hn : n < 10
  · rw [Nat.toDigits_of_lt_base hn]
    simp [decimalValue, Nat.toNat_digitChar_of_lt_ten hn]
  · have hsmaller := decimalValue_ofNat (n / 10)
    unfold Text.ofNat at hsmaller
    rw [Nat.toDigits_of_base_le (by decide) (by omega), decimalValue_append, hsmaller,
      Nat.toNat_digitChar_of_lt_ten (by omega)]
    have : '0'.toNat = 48 := rfl
    omega
  termination_by n
  decreasing_by omega

/-- Only the number zero begins with the digit zero. -/
theorem head?_ofNat (n : Nat) (hn : n ≠ 0) : (Text.ofNat n).head? ≠ some '0' := by
  unfold Text.ofNat
  by_cases hsmall : n < 10
  · rw [Nat.toDigits_of_lt_base hsmall]
    simpa using hn
  · have hsmaller := head?_ofNat (n / 10) (by omega)
    unfold Text.ofNat at hsmaller
    rw [Nat.toDigits_of_base_le (by decide) (by omega), List.head?_append_of_ne_nil _ Nat.toDigits_ne_nil]
    exact hsmaller
  termination_by n
  decreasing_by omega

theorem isInteger_ofNat (n : Nat) : isInteger (Text.ofNat n) = true := by
  have hdigits : isDigits (Text.ofNat n) = true := by
    have hne : Text.ofNat n ≠ [] := Nat.toDigits_ne_nil
    simp only [isDigits, hne, decide_true, ne_eq, not_false_eq_true, Bool.true_and]
    exact List.all_eq_true.mpr isDigit_ofNat
  by_cases hn : n = 0
  · subst hn
    decide
  · simp [isInteger, hdigits, head?_ofNat n hn]

/-- No word begins as a number does. -/
theorem words_of_isNumberPart {c : Char} (h : isNumberPart c = true) (rest : Text) :
    words.findSome? (fun (word, value) => (after? word (c :: rest)).map fun rest => (value, rest)) =
      none := by
  have hletters : c ≠ 'n' ∧ c ≠ 't' ∧ c ≠ 'f' := by
    refine ⟨?_, ?_, ?_⟩ <;> rintro rfl <;> revert h <;> decide
  simp [words, after?, hletters.1.symm, hletters.2.1.symm, hletters.2.2.symm]

/-- A number is spelled with digits, signs, points and exponents only, and is read as `value`. -/
structure IsLiteral (literal : Text) (value : Json) : Prop where
  ne_nil : literal ≠ []
  parts : ∀ c ∈ literal, isNumberPart c = true
  value_eq : ofNumber? literal = some value

theorem isLiteral_ofNat (n : Nat) : IsLiteral (Text.ofNat n) (natural n) where
  ne_nil := Nat.toDigits_ne_nil
  parts c hc := by simp [isNumberPart, isDigit_ofNat c hc]
  value_eq := by rw [ofNumber?, if_pos (isInteger_ofNat n), decimalValue_ofNat]

theorem readScalar?_literal {literal : Text} {value : Json} (h : IsLiteral literal value)
    (hbehind : behind.takeWhile isNumberPart = []) :
    readScalar? (literal ++ behind) = some (value, behind) := by
  obtain ⟨c, rest, rfl⟩ := List.exists_cons_of_ne_nil h.ne_nil
  have hwords := words_of_isNumberPart (h.parts c List.mem_cons_self) (rest ++ behind)
  have hliteral : ((c :: rest) ++ behind).takeWhile isNumberPart = c :: rest := by
    rw [List.takeWhile_append_of_pos h.parts, hbehind, List.append_nil]
  simp only [readScalar?, ← List.cons_append] at hwords ⊢
  simp only [hwords, hliteral, h.value_eq, Option.map_some, List.drop_left]

end

/-! ## Strings -/

section

variable {text behind : Text}

theorem readCodes?_plain {c : Char} (hquote : c ≠ '"') (hbackslash : c ≠ '\\')
    (hcontrol : 0x20 ≤ c.toNat) (rest : Text) :
    readCodes? (c :: rest) = (readCodes? rest).map fun (codes, rest) => (c.toNat :: codes, rest) := by
  rw [readCodes?.eq_def]
  split
  · simp_all
  · simp_all
  · simp_all
  · simp_all
  · rename_i heq
    cases heq
    rw [if_neg (by omega)]

theorem readCodes?_short {mark c : Char} (hmark : mark ≠ 'u') (h : shortEscape? mark = some c)
    (rest : Text) :
    readCodes? ('\\' :: mark :: rest) =
      (readCodes? rest).map fun (codes, rest) => (c.toNat :: codes, rest) := by
  rw [readCodes?.eq_4 _ _ (by simpa using hmark), h, Option.bind_some]

/-- The code of a control character, in four digits. -/
theorem fixedHex?_control {c : Char} (h : c.toNat < 0x20) (rest : Text) :
    CodePoint.fixedHex? 4 ('0' :: '0' :: hexDigit (c.toNat / 16) :: hexDigit (c.toNat % 16) :: rest) =
      some c.toNat := by
  have hall : ∀ n < 0x20,
      CodePoint.hexValue? ['0', '0', hexDigit (n / 16), hexDigit (n % 16)] = some n := by
    decide
  unfold CodePoint.fixedHex?
  simpa using hall c.toNat h

theorem readCodes?_writeChar (c : Char) (rest : Text) :
    readCodes? (writeChar c ++ rest) =
      (readCodes? rest).map fun (codes, rest) => (c.toNat :: codes, rest) := by
  unfold writeChar
  split
  case h_8 hquote hbackslash _ _ _ _ _ =>
    split
    · rename_i hcontrol
      have hcode := fixedHex?_control hcontrol rest
      show readCodes? ('\\' :: 'u' :: '0' :: '0' :: hexDigit (c.toNat / 16) ::
        hexDigit (c.toNat % 16) :: rest) = _
      rw [readCodes?, hcode, Option.bind_some]
      rfl
    · exact readCodes?_plain hquote hbackslash (by omega) rest
  all_goals exact readCodes?_short (by decide) rfl rest

theorem readCodes?_write (text behind : Text) :
    readCodes? (text.flatMap writeChar ++ '"' :: behind) = some (text.map Char.toNat, behind) := by
  induction text with
  | nil => rw [List.flatMap_nil, List.nil_append, readCodes?]; rfl
  | cons c text ih =>
    rw [List.flatMap_cons, List.append_assoc, readCodes?_writeChar, ih]
    rfl

/-- No character is half a surrogate pair. -/
theorem isHighSurrogate_toNat (c : Char) : CodePoint.isHighSurrogate c.toNat = false := by
  rw [Bool.eq_false_iff]
  exact fun h => Escape.not_isValidChar_of_isHighSurrogate h c.valid

theorem ofCodes?_map_toNat (text : Text) : ofCodes? (text.map Char.toNat) = some text := by
  match text with
  | [] => rfl
  | [c] => simp [ofCodes?, Escape.scalar?_toNat]
  | c :: d :: rest =>
    have hlater := ofCodes?_map_toNat (d :: rest)
    rw [List.map_cons] at hlater
    simp [ofCodes?, isHighSurrogate_toNat, Escape.scalar?_toNat, hlater]

theorem readString?_write (text behind : Text) :
    readString? (text.flatMap writeChar ++ '"' :: behind) = some (some text, behind) := by
  simp only [readString?, readCodes?_write, Option.map_some, ofCodes?_map_toNat]

/-- The mark and the content of a name, and what is read of them. -/
theorem exists_writeName (name : Option Text) :
    ∃ inside, writeName name = '"' :: inside ∧
      ∀ behind, readString? (inside ++ behind) = some (name, behind) := by
  cases name with
  | none =>
    refine ⟨"\\ud800\"", rfl, fun behind => ?_⟩
    show readString? ('\\' :: 'u' :: 'd' :: '8' :: '0' :: '0' :: '"' :: behind) = _
    have hcode : CodePoint.fixedHex? 4 ('d' :: '8' :: '0' :: '0' :: '"' :: behind) = some 0xD800 := by
      simp [CodePoint.fixedHex?]
      rfl
    rw [readString?, readCodes?, hcode, Option.bind_some]
    simp [readCodes?]
    rfl
  | some text =>
    refine ⟨text.flatMap writeChar ++ "\"", rfl, fun behind => ?_⟩
    rw [List.append_assoc]
    exact readString?_write text behind

end

/-! ## Layout -/

section

variable {c : Char} {fuel : Nat}

theorem skipSpace_newLine (depth : Nat) (text : Text) :
    skipSpace (newLine depth ++ text) = skipSpace text := by
  unfold skipSpace newLine
  refine List.dropWhile_append_of_pos fun c hc => ?_
  rcases List.mem_cons.mp hc with rfl | hc
  · decide
  · rw [List.eq_of_mem_replicate hc]
    decide

theorem length_newLine (depth : Nat) : (newLine depth).length = 2 * depth + 1 := by simp [newLine]

theorem skipSpace_cons (h : isSpace c = false) (rest : Text) : skipSpace (c :: rest) = c :: rest :=
  List.dropWhile_cons_of_neg (by simp [h])

theorem readValue?_newLine (fuel depth : Nat) (text : Text) :
    readValue? fuel (newLine depth ++ text) = readValue? fuel text := by
  cases fuel <;> simp only [readValue?, skipSpace_newLine]

theorem readMember?_newLine (fuel depth : Nat) (text : Text) :
    readMember? fuel (newLine depth ++ text) = readMember? fuel text := by
  cases fuel <;> simp only [readMember?, skipSpace_newLine]

end

/-! ## Values -/

/-- A value whose text is JSON: a number that is kept as it is spelled is spelled as one, and could not be
kept as its value. -/
inductive Legible : Json → Prop where
  | null : Legible null
  | bool (value : Bool) : Legible (bool value)
  | natural (value : Nat) : Legible (natural value)
  | number {literal : Text} (h : IsLiteral literal (number literal)) : Legible (number literal)
  | string (value : Text) : Legible (string value)
  | unpaired : Legible unpaired
  | array {items : List Json} (h : ∀ item ∈ items, Legible item) : Legible (array items)
  | object {members : List (Option Text × Json)} (h : ∀ member ∈ members, Legible member.2) :
    Legible (object members)

/-- Every value but an object, an array and a string begins with a letter, a digit or a sign. -/
theorem readValue?_scalar {c : Char} (h : isSpace c = false ∧ c ≠ '"' ∧ c ≠ '[' ∧ c ≠ '{')
    (fuel : Nat) (rest : Text) : readValue? (fuel + 1) (c :: rest) = readScalar? (c :: rest) := by
  obtain ⟨hspace, hquote, hbracket, hbrace⟩ := h
  rw [readValue?, skipSpace_cons hspace]
  split <;> simp_all

/-- A string, which may be no text. -/
theorem readValue?_writeName (fuel : Nat) (name : Option Text) (behind : Text) :
    readValue? (fuel + 1) (writeName name ++ behind) = some (ofString name, behind) := by
  obtain ⟨inside, hwrite, hread⟩ := exists_writeName name
  rw [hwrite, List.cons_append, readValue?, skipSpace_cons (by decide)]
  simp only [hread, Option.map_some]

theorem readMember?_writeName (fuel depth : Nat) (name : Option Text) (rest : Text) :
    readMember? (fuel + 1) (newLine depth ++ (writeName name ++ ": " ++ rest)) =
      (readValue? fuel rest).map fun (value, rest) => ((name, value), rest) := by
  obtain ⟨inside, hwrite, hread⟩ := exists_writeName name
  have hcolon : skipSpace (": ".toList ++ rest) = ':' :: ' ' :: rest := skipSpace_cons (by decide) _
  have hblank : readValue? fuel (' ' :: rest) = readValue? fuel rest := by
    cases fuel <;> rfl
  rw [readMember?_newLine, hwrite, List.append_assoc, List.cons_append, readMember?,
    skipSpace_cons (by decide)]
  simp only [hread, Option.bind_some, hcolon, hblank]

/-- No part of a number is layout, a quote or a bracket. -/
theorem not_isNumberPart : ∀ c ∈ [' ', '\n', '\t', '\r', '"', '[', ']', '{'], isNumberPart c = false := by
  simp [isNumberPart, Char.isDigit]

theorem plain_of_isNumberPart {c : Char} (h : isNumberPart c = true) :
    (isSpace c = false ∧ c ≠ '"' ∧ c ≠ '[' ∧ c ≠ '{') ∧ c ≠ ']' := by
  have hother := mt (not_isNumberPart c) (by simp [h])
  simp_all [isSpace]

theorem readValue?_literal (fuel : Nat) {literal behind : Text} {value : Json}
    (h : IsLiteral literal value) (hbehind : behind.takeWhile isNumberPart = []) :
    readValue? (fuel + 1) (literal ++ behind) = some (value, behind) := by
  rw [← readScalar?_literal h hbehind]
  obtain ⟨c, rest, rfl⟩ := List.exists_cons_of_ne_nil h.ne_nil
  exact readValue?_scalar (plain_of_isNumberPart (h.parts c List.mem_cons_self)).1 fuel (rest ++ behind)

/-- A written value begins neither with layout nor as the end of an array. -/
theorem exists_writeAt (depth : Nat) {json : Json} (h : Legible json) :
    ∃ c rest, writeAt depth json = c :: rest ∧ isSpace c = false ∧ c ≠ ']' := by
  have hliteral : ∀ {literal value}, IsLiteral literal value →
      ∃ c rest, literal = c :: rest ∧ isSpace c = false ∧ c ≠ ']' := by
    intro literal value hliteral
    obtain ⟨c, rest, rfl⟩ := List.exists_cons_of_ne_nil hliteral.ne_nil
    have hplain := plain_of_isNumberPart (hliteral.parts c List.mem_cons_self)
    exact ⟨c, rest, rfl, hplain.1.1, hplain.2⟩
  cases h with
  | null => exact ⟨'n', _, rfl, by decide⟩
  | bool value => cases value <;> exact ⟨_, _, rfl, by decide⟩
  | natural value => exact hliteral (isLiteral_ofNat value)
  | number h => exact hliteral h
  | string value => exact ⟨'"', _, rfl, by decide⟩
  | unpaired => exact ⟨'"', _, rfl, by decide⟩
  | @array items h => cases items <;> exact ⟨'[', _, rfl, by decide⟩
  | @object members h =>
    rcases members with _ | ⟨⟨name, value⟩, others⟩ <;> exact ⟨'{', _, rfl, by decide⟩

theorem readValue?_items {fuel : Nat} {c : Char} {rest more : Text} (hrest : skipSpace rest = c :: more)
    (hc : c ≠ ']') :
    readValue? (fuel + 1) ('[' :: rest) =
      (readItems? fuel rest).map fun (items, rest) => (array items, rest) := by
  rw [readValue?, skipSpace_cons (by decide)]
  simp only [hrest]
  split <;> simp_all

theorem readValue?_members {fuel : Nat} {c : Char} {rest more : Text} (hrest : skipSpace rest = c :: more)
    (hc : c ≠ '}') :
    readValue? (fuel + 1) ('{' :: rest) =
      (readMembers? fuel rest).map fun (members, rest) => (object members, rest) := by
  rw [readValue?, skipSpace_cons (by decide)]
  simp only [hrest]
  split <;> simp_all

/-- The parts of an array or object, each on its own line, up to the closing bracket. -/
def inner (depth : Nat) (parts : List Text) (behind : Text) : Text :=
  newLine (depth + 1) ++ (Text.join (',' :: newLine (depth + 1)) parts ++ (newLine depth ++ behind))

theorem inner_singleton (depth : Nat) (part behind : Text) :
    inner depth [part] behind = newLine (depth + 1) ++ (part ++ (newLine depth ++ behind)) := by
  simp [inner, Text.join]

theorem inner_cons_cons (depth : Nat) (part next : Text) (parts : List Text) (behind : Text) :
    inner depth (part :: next :: parts) behind =
      newLine (depth + 1) ++ (part ++ (',' :: inner depth (next :: parts) behind)) := by
  simp [inner, Text.join_cons_cons]

theorem length_inner (depth : Nat) (parts : List Text) (behind : Text) :
    (inner depth parts behind).length = (inner depth parts []).length + behind.length := by
  simp [inner, Nat.add_assoc]

/-- Behind the opening bracket, the first part comes up at once. -/
theorem exists_skipSpace_inner {c : Char} {rest : Text} (hc : isSpace c = false) (depth : Nat)
    (parts : List Text) (behind : Text) :
    ∃ more, skipSpace (inner depth ((c :: rest) :: parts) behind) = c :: more := by
  cases parts with
  | nil =>
    rw [inner_singleton, skipSpace_newLine]
    exact ⟨_, skipSpace_cons hc _⟩
  | cons next parts =>
    rw [inner_cons_cons, skipSpace_newLine]
    exact ⟨_, skipSpace_cons hc _⟩

theorem writeAt_array_append (depth : Nat) (item : Json) (others : List Json) (behind : Text) :
    writeAt depth (array (item :: others)) ++ behind =
      '[' :: inner depth (writeItems (depth + 1) (item :: others)) (']' :: behind) := by
  simp [writeAt, writeItems, writeParts, inner]

theorem writeAt_object_append (depth : Nat) (member : Option Text × Json)
    (others : List (Option Text × Json)) (behind : Text) :
    writeAt depth (object (member :: others)) ++ behind =
      '{' :: inner depth (writeMembers (depth + 1) (member :: others)) ('}' :: behind) := by
  simp [writeAt, writeMembers, writeParts, inner]

/-- What stands behind the value is left, if it does not continue a number. -/
def IsReadBack (json : Json) : Prop :=
  ∀ (depth fuel : Nat) (behind : Text), 3 * (writeAt depth json).length ≤ fuel →
    behind.takeWhile isNumberPart = [] →
    readValue? fuel (writeAt depth json ++ behind) = some (json, behind)

theorem readItems?_inner {item : Json} {others : List Json}
    (h : ∀ part ∈ item :: others, IsReadBack part) {depth fuel : Nat} {behind : Text}
    (hfuel : 3 * (inner depth (writeItems (depth + 1) (item :: others)) []).length + 1 ≤ fuel) :
    readItems? fuel (inner depth (writeItems (depth + 1) (item :: others)) (']' :: behind)) =
      some (item :: others, behind) := by
  obtain ⟨hitem, hothers⟩ := List.forall_mem_cons.mp h
  induction others generalizing item fuel with
  | nil =>
    simp only [writeItems, inner_singleton, List.length_append] at hfuel ⊢
    obtain _ | fuel := fuel
    · omega
    rw [readItems?, readValue?_newLine, hitem _ _ _ (by omega) rfl]
    simp only [Option.bind_some, skipSpace_newLine, skipSpace_cons (show isSpace ']' = false by decide)]
  | cons next others ih =>
    obtain ⟨hnext, hlater⟩ := List.forall_mem_cons.mp hothers
    simp only [writeItems, inner_cons_cons, List.length_append, List.length_cons] at hfuel ih ⊢
    obtain _ | fuel := fuel
    · omega
    rw [readItems?, readValue?_newLine, hitem _ _ _ (by omega) rfl]
    simp only [Option.bind_some, skipSpace_cons (show isSpace ',' = false by decide)]
    rw [ih hothers (by omega) hnext hlater, Option.map_some]

theorem readMembers?_inner {member : Option Text × Json} {others : List (Option Text × Json)}
    (h : ∀ part ∈ member :: others, IsReadBack part.2) {depth fuel : Nat} {behind : Text}
    (hfuel : 3 * (inner depth (writeMembers (depth + 1) (member :: others)) []).length + 1 ≤ fuel) :
    readMembers? fuel (inner depth (writeMembers (depth + 1) (member :: others)) ('}' :: behind)) =
      some (member :: others, behind) := by
  obtain ⟨hmember, hothers⟩ := List.forall_mem_cons.mp h
  induction others generalizing member fuel with
  | nil =>
    simp only [writeMembers, inner_singleton, List.length_append, length_newLine] at hfuel ⊢
    obtain _ | _ | fuel := fuel
    · omega
    · omega
    rw [readMembers?, List.append_assoc, readMember?_writeName, hmember _ _ _ (by omega) rfl]
    simp only [Option.map_some, Option.bind_some, skipSpace_newLine,
      skipSpace_cons (show isSpace '}' = false by decide)]
  | cons next others ih =>
    obtain ⟨hnext, hlater⟩ := List.forall_mem_cons.mp hothers
    simp only [writeMembers, inner_cons_cons, List.length_append, List.length_cons,
      length_newLine] at hfuel ih ⊢
    obtain _ | _ | fuel := fuel
    · omega
    · omega
    rw [readMembers?, List.append_assoc, readMember?_writeName, hmember _ _ _ (by omega) rfl]
    simp only [Option.map_some, Option.bind_some, skipSpace_cons (show isSpace ',' = false by decide)]
    rw [ih hothers (by omega) hnext hlater, Option.map_some]

theorem isReadBack_of_succ {json : Json} (h : Legible json)
    (hread : ∀ (depth fuel : Nat) (behind : Text), 3 * (writeAt depth json).length ≤ fuel + 1 →
      behind.takeWhile isNumberPart = [] →
      readValue? (fuel + 1) (writeAt depth json ++ behind) = some (json, behind)) :
    IsReadBack json := by
  intro depth fuel behind hfuel hbehind
  obtain ⟨c, rest, hwrite, -⟩ := exists_writeAt depth h
  obtain _ | fuel := fuel
  · simp [hwrite] at hfuel
  · exact hread depth fuel behind hfuel hbehind

/-- A legible value is read back from its text, and what stands behind it is left. -/
theorem Legible.isReadBack {json : Json} (h : Legible json) : IsReadBack json := by
  induction h with
  | null => exact isReadBack_of_succ .null fun _ _ _ _ _ => rfl
  | bool value => cases value <;> exact isReadBack_of_succ (.bool _) fun _ _ _ _ _ => rfl
  | natural value =>
    exact isReadBack_of_succ (.natural value) fun _ fuel _ _ =>
      readValue?_literal fuel (isLiteral_ofNat value)
  | number h => exact isReadBack_of_succ (.number h) fun _ fuel _ _ => readValue?_literal fuel h
  | string value =>
    exact isReadBack_of_succ (.string value) fun _ fuel behind _ _ =>
      readValue?_writeName fuel (some value) behind
  | unpaired =>
    exact isReadBack_of_succ .unpaired fun _ fuel behind _ _ => readValue?_writeName fuel none behind
  | @array items h ih =>
    refine isReadBack_of_succ (.array h) fun depth fuel behind hfuel _ => ?_
    match items, h, ih, hfuel with
    | [], _, _, _ => rfl
    | item :: others, h, ih, hfuel =>
      obtain ⟨c, rest, hwrite, hspace, hclosing⟩ := exists_writeAt (depth + 1) (h item List.mem_cons_self)
      obtain ⟨more, hskip⟩ :=
        exists_skipSpace_inner hspace depth (writeItems (depth + 1) others) (']' :: behind)
      rw [← hwrite, ← writeItems] at hskip
      have hlength := congrArg List.length (writeAt_array_append depth item others [])
      rw [List.append_nil, List.length_cons, length_inner, List.length_singleton] at hlength
      rw [writeAt_array_append, readValue?_items hskip hclosing, readItems?_inner ih (by omega),
        Option.map_some]
  | @object members h ih =>
    refine isReadBack_of_succ (.object h) fun depth fuel behind hfuel _ => ?_
    match members, ih, hfuel with
    | [], _, _ => rfl
    | (name, value) :: others, ih, hfuel =>
      obtain ⟨inside, hname, -⟩ := exists_writeName name
      obtain ⟨more, hskip⟩ := exists_skipSpace_inner (show isSpace '"' = false by decide) depth
        (writeMembers (depth + 1) others) ('}' :: behind)
      have hwrite : writeMembers (depth + 1) ((name, value) :: others) =
          ('"' :: (inside ++ ": ".toList ++ writeAt (depth + 1) value)) ::
            writeMembers (depth + 1) others := by
        simp [writeMembers, hname]
      rw [← hwrite] at hskip
      have hlength := congrArg List.length (writeAt_object_append depth (name, value) others [])
      rw [List.append_nil, List.length_cons, length_inner, List.length_singleton] at hlength
      rw [writeAt_object_append, readValue?_members hskip (by decide), readMembers?_inner ih (by omega),
        Option.map_some]

/-- A legible value is read from its text, also when layout stands behind it. -/
theorem read?_write {json : Json} (h : Legible json) {behind : Text}
    (hbehind : ∀ c ∈ behind, isSpace c = true) :
    read? (json.write ++ behind) = some json := by
  have hskip : skipSpace behind = [] := by
    rw [skipSpace, ← List.append_nil behind, List.dropWhile_append_of_pos hbehind, List.dropWhile_nil]
  have hnumber : behind.takeWhile isNumberPart = [] := by
    cases behind with
    | nil => rfl
    | cons c rest =>
      have hc : isNumberPart c ≠ true := fun hc => by
        simpa [hbehind c List.mem_cons_self] using (plain_of_isNumberPart hc).1.1
      exact List.takeWhile_cons_of_neg hc
  have hread := h.isReadBack 0 (3 * (writeAt 0 json ++ behind).length + 3) behind
    (by rw [List.length_append]; omega) hnumber
  rw [read?, write, hread]
  simp only [hskip, if_true]

end Phrasebook.Json
