import Mathlib.Data.List.TakeWhile
import Phrasebook.Proofs.Escape.Forms
import Phrasebook.Proofs.Guarded.Basic
import Phrasebook.Proofs.Text.Search

/-!
# Escapes by bytes

Here the digits of an escape are cut out of a literal by their bytes, and a cut that would end inside a
character finds no digits.
-/

namespace Phrasebook

open Text

namespace Guarded

open CodePoint

/-! ## Digits -/

/-- The number that a text of hex digits writes; no digits write none. -/
def parseHex? (hex : Text) : Option Nat := if hex = [] then none else hexValue? hex

/-- The number in the first `count` bytes. -/
def hexDigits? (count : Nat) (digits : Text) : Option Nat := (slice? 0 count digits).bind parseHex?

def fixed? (count : Nat) (digits : Text) : Option Escape :=
  ((hexDigits? count digits).bind scalar?).map (⟨·, count⟩)

/-- The value of octal digits while it fits into a byte, and how many they are, at most `count`. -/
def octalFrom (value width : Nat) : Nat → Text → Guarded Escape
  | count + 1, c :: rest =>
    if '0' ≤ c ∧ c ≤ '7' then do
      let digit ← minus c.toNat '0'.toNat
      let next := value * 8 + digit
      if 0xFF < next then return ⟨Char.ofNat value, width⟩ else octalFrom next (width + 1) count rest
    else return ⟨Char.ofNat value, width⟩
  | _, _ => return ⟨Char.ofNat value, width⟩

/-- Digits in braces, `rest` beginning with `u` and an opening brace. -/
def braced? (rest : Text) : Guarded (Option Escape) := do
  let digits ← sliceFrom rest 2
  match find? "\x7d" digits with
  | none => return none
  | some close =>
    if close = 0 ∨ 6 < close then return none
    else
      let hex ← sliceTo digits close
      return ((hexValue? hex).bind scalar?).map (⟨·, close + 3⟩)

/-- The digits of a second escape of four, which stands behind the first. -/
def second? (rest : Text) : Option Nat :=
  ((slice? 5 7 rest).filter fun marker => marker = ['\\', 'u']).bind fun _ =>
    (slice? 7 11 rest).bind parseHex?

/-- Four digits behind `u`, or two such escapes for a surrogate pair. -/
def utf16? (rest : Text) : Guarded (Option Escape) := do
  match (slice? 1 5 rest).bind parseHex? with
  | none => return none
  | some high =>
    match scalar? high with
    | some c => return some ⟨c, 5⟩
    | none =>
      if isHighSurrogate high then
        match (second? rest).filter isLowSurrogate with
        | none => return none
        | some low =>
          let above ← minus high 0xD800
          let below ← minus low 0xDC00
          return (scalar? (0x10000 + above * 0x400 + below)).map (⟨·, 11⟩)
      else return none

/-! ## Escapes -/

/-- The numeric escape at the beginning of `rest`, which begins with `c`. -/
def numeric? (dialect : Dialect) (c : Char) (rest : Text) : Guarded (Option Escape) :=
  if '0' ≤ c ∧ c ≤ '7' then do
    let escape ← octalFrom 0 0 3 rest
    return some escape
  else if c = 'x' then do
    let digits ← sliceFrom rest 1
    return (fixed? 2 digits).map fun escape => ⟨escape.char, escape.width + 1⟩
  else if c = 'u' then do
    let behind ← sliceFrom rest 1
    if begins "\x7b" behind then braced? rest else utf16? rest
  else if c = 'U' ∧ dialect = .go then do
    let digits ← sliceFrom rest 1
    return (fixed? 8 digits).map fun escape => ⟨escape.char, escape.width + 1⟩
  else return none

/-- The text that an escape stands for, and how many bytes of `input` it takes. The input begins with a
backslash. -/
def decodeEscape (dialect : Dialect) (input : Text) : Guarded (Text × Nat) := do
  ensure (begins "\\" input)
  let rest ← sliceFrom input 1
  match rest with
  | [] =>
    let literal ← sliceTo input 1
    return (literal, 1)
  | c :: _ =>
    match ← numeric? dialect c rest with
    | some escape => return ([escape.char], escape.width + 1)
    | none =>
      let width := 1 + c.utf8Size
      let literal ← sliceTo input width
      return (literal, width)

/-- The body of a literal with its escapes decoded, in at most so many rounds. -/
def decodeFrom (dialect : Dialect) : Nat → Text → Guarded Text
  | 0, _ => .error .endless
  | rounds + 1, rest =>
    match find? "\\" rest with
    | none => return rest
    | some start => do
      let before ← sliceTo rest start
      let input ← sliceFrom rest start
      let (text, width) ← decodeEscape dialect input
      let behind ← sliceFrom rest (start + width)
      let later ← decodeFrom dialect rounds behind
      return before ++ text ++ later

def decode (dialect : Dialect) (body : Text) : Guarded Text :=
  decodeFrom dialect (byteLength body + 1) body

/-! ## The digits are those of the library -/

theorem slice?_zero (count : Nat) (digits : Text) :
    slice? 0 count digits = (cut? count digits).map Prod.fst := by
  have hcut : cut? 0 digits = some ([], digits) := cut?_eq_some_iff.mpr ⟨rfl, rfl⟩
  rw [slice?, if_pos (Nat.zero_le count), hcut]
  rfl

/-- Where the first bytes are hex digits, they are as many characters. -/
theorem hexValueFrom?_cut? (acc count : Nat) (digits : Text) :
    ((cut? count digits).map Prod.fst).bind (hexValueFrom? acc) =
      if (digits.take count).length = count then hexValueFrom? acc (digits.take count) else none := by
  induction digits generalizing acc count with
  | nil => cases count <;> simp [cut?]
  | cons c rest ih =>
    cases count with
    | zero => simp [cut?]
    | succ count =>
      rw [cut?, if_neg (Nat.succ_ne_zero count), List.take_succ_cons, List.length_cons]
      simp only [Nat.add_right_cancel_iff, hexValueFrom?]
      cases hdigit : hexDigit? c with
      | none =>
        rw [Option.bind_none, ite_self]
        split
        · cases cut? (count + 1 - c.utf8Size) rest <;> simp [hexValueFrom?, hdigit]
        · rfl
      | some digit =>
        have hsize := Escape.utf8Size_of_isDigit (Escape.isDigit_of_hexDigit? hdigit)
        rw [if_pos (by omega), hsize, Nat.add_sub_cancel, Option.bind_some, ← ih]
        cases cut? count rest <;> simp [hexValueFrom?, hdigit]

theorem hexDigits?_eq {count : Nat} (hcount : count ≠ 0) (digits : Text) :
    hexDigits? count digits = fixedHex? count digits := by
  rw [fixedHex?, hexValue?, ← hexValueFrom?_cut?, hexDigits?, slice?_zero]
  cases hcut : cut? count digits with
  | none => rfl
  | some found =>
    obtain ⟨hex, behind⟩ := found
    obtain ⟨-, hlength⟩ := cut?_eq_some_iff.mp hcut
    have hne : hex ≠ [] := by
      rintro rfl
      exact hcount hlength.symm
    simp [parseHex?, hne, hexValue?]

/-! ## Each form of escape -/

theorem octalFrom_spec (value width count : Nat) (text : Text) :
    octalFrom value width count text = .ok (Escape.octalFrom count value width text) := by
  induction text generalizing value width count with
  | nil => cases count <;> rfl
  | cons c rest ih =>
    cases count with
    | zero => rfl
    | succ count =>
      rw [Escape.octalFrom.eq_def, octalFrom]
      by_cases hdigit : '0' ≤ c ∧ c ≤ '7'
      · have hle : '0'.toNat ≤ c.toNat := hdigit.1
        have hvalue : Escape.octalDigit? c = some (c.toNat - '0'.toNat) := if_pos hdigit
        simp only [hvalue, if_pos hdigit, minus_eq hle, ok_bind]
        split
        · rename_i hlarge
          rw [if_neg (by omega)]
          rfl
        · rename_i hsmall
          rw [if_pos (by omega), ih]
      · have hnone : Escape.octalDigit? c = none := if_neg hdigit
        simp only [hnone, if_neg hdigit]
        rfl

theorem split?_of_not_mem {mark : Char} {before : Text} (h : mark ∉ before) (behind : Text) :
    split? [mark] (before ++ mark :: behind) = some (before, behind) :=
  split?_eq_some_iff.mpr ⟨by simp, endsAt_singleton.mpr h⟩

theorem split?_eq_none_of_not_mem {mark : Char} {text : Text} (h : mark ∉ text) :
    split? [mark] text = none := by
  cases hsplit : split? [mark] text with
  | none => rfl
  | some found =>
    rw [append_of_split? hsplit] at h
    simp at h

theorem braced?_spec (behind : Text) : braced? ('u' :: '\x7b' :: behind) = .ok (Escape.braced? behind) := by
  have hopen : sliceFrom ('u' :: '\x7b' :: behind) 2 = .ok behind :=
    sliceFrom_eq ['u', '\x7b'] rfl rfl
  rw [braced?, hopen, ok_bind, find?, Escape.braced?]
  by_cases hmem : '\x7d' ∈ behind
  · obtain ⟨digits, later, rfl, hdigits⟩ := List.eq_append_cons_of_mem hmem
    have htake : (digits ++ '\x7d' :: later).takeWhile (· ≠ '\x7d') = digits := by
      rw [List.takeWhile_append_of_pos, List.takeWhile_cons_of_neg (by simp), List.append_nil]
      intro d hd
      simpa using ne_of_mem_of_not_mem hd hdigits
    have hsplit : split? "\x7d" (digits ++ '\x7d' :: later) = some (digits, later) :=
      split?_of_not_mem hdigits later
    simp only [hsplit, Option.map_some, htake, sliceTo_eq _ rfl rfl, ok_bind]
    cases hvalue : hexValue? digits with
    | none =>
      split <;> split <;> rfl
    | some value =>
      rw [Escape.byteLength_of_writes (by decide) (Escape.writes_of_hexValue? hvalue)]
      split
      · rw [if_neg (by omega)]
        rfl
      · rw [if_pos ⟨by simp, by omega, by omega⟩]
        rfl
  · have htake : behind.takeWhile (· ≠ '\x7d') = behind := by
      rw [List.takeWhile_eq_self_iff]
      intro d hd
      simpa using ne_of_mem_of_not_mem hd hmem
    have hsplit : split? "\x7d" behind = none := split?_eq_none_of_not_mem hmem
    rw [hsplit, htake, if_neg (by simp)]
    rfl

/-- The second escape of a pair, `more` being what stands behind the first. -/
theorem second?_eq {high : Text} (more : Text) (hhigh : byteLength high = 4) :
    (second? ('u' :: (high ++ more))).filter isLowSurrogate = Escape.low? more := by
  have hahead : byteLength ('u' :: high) = 5 := by
    rw [byteLength_cons, hhigh]
    rfl
  have hmarker := slice?_append ('u' :: high) 0 2 more
  have hdigits := slice?_append ('u' :: high) 2 6 more
  rw [hahead, List.cons_append] at hmarker hdigits
  rw [second?, hmarker, hdigits]
  by_cases hpair : ∃ digits, more = '\\' :: 'u' :: digits
  · obtain ⟨digits, rfl⟩ := hpair
    have hfound : slice? 0 2 ('\\' :: 'u' :: digits) = some ['\\', 'u'] :=
      slice?_eq_some_iff.mpr ⟨[], digits, rfl, rfl, rfl⟩
    have hrest : slice? 2 6 ('\\' :: 'u' :: digits) = slice? 0 4 digits := slice?_append ['\\', 'u'] 0 4 digits
    rw [hfound, hrest, Option.filter_some_pos (by simp), Option.bind_some]
    exact congrArg (Option.filter isLowSurrogate) (hexDigits?_eq (by decide) digits)
  · have hnone : (slice? 0 2 more).filter (fun marker => decide (marker = ['\\', 'u'])) = none := by
      rw [Option.filter_eq_none_iff]
      rintro marker hmarker
      obtain ⟨before, behind, hmore, hstart, -⟩ := slice?_eq_some_iff.mp hmarker
      obtain rfl : before = [] := eq_nil_of_byteLength_eq_zero hstart
      rw [decide_eq_true_eq]
      rintro rfl
      exact hpair ⟨behind, hmore⟩
    rw [hnone]
    unfold Escape.low?
    split
    · exact absurd ⟨_, rfl⟩ hpair
    · rfl

theorem utf16?_spec (behind : Text) : utf16? ('u' :: behind) = .ok (Escape.utf16? behind) := by
  have hfirst : (slice? 1 5 ('u' :: behind)).bind parseHex? = CodePoint.fixedHex? 4 behind :=
    (congrArg (Option.bind · parseHex?) (slice?_append ['u'] 0 4 behind)).trans
      (hexDigits?_eq (by decide) behind)
  rw [utf16?, hfirst, Escape.utf16?]
  cases hhigh : CodePoint.fixedHex? 4 behind with
  | none => rfl
  | some high =>
    obtain ⟨digits, more, rfl, hlength, hwrites⟩ := Escape.exists_writes_of_fixedHex? hhigh
    have hbytes := Escape.byteLength_of_writes (by decide) hwrites
    rw [hlength] at hbytes
    rw [Option.bind_some]
    simp only [second?_eq more hbytes, List.drop_left' hlength]
    cases scalar? high with
    | some c => rfl
    | none =>
      simp only
      split
      · rename_i hsurrogate
        cases hlow : Escape.low? more with
        | none => rfl
        | some low =>
          have hsecond := second?_eq more hbytes
          rw [hlow] at hsecond
          have hfilter := (Option.filter_eq_some_iff.mp hsecond).2
          simp only [isHighSurrogate, isLowSurrogate, Bool.and_eq_true, decide_eq_true_eq] at hsurrogate hfilter
          have hhighest := minus_eq hsurrogate.1
          have hlowest := minus_eq hfilter.1
          rw [Option.bind_some]
          have hpair : 0x10000 + (high - 0xD800) * 0x400 + (low - 0xDC00) = pairValue high low := by
            unfold pairValue
            omega
          simp only [hhighest, hlowest, ok_bind, hpair, pure_eq_ok]
      · rfl

theorem fixed?_spec {count : Nat} (hcount : count ≠ 0) (digits : Text) :
    (fixed? count digits).map (fun escape => (⟨escape.char, escape.width + 1⟩ : Escape)) =
      Escape.fixed? count digits := by
  rw [fixed?, Escape.fixed?, hexDigits?_eq hcount, Option.map_map]
  rfl

theorem numeric?_spec (dialect : Dialect) (c : Char) (behind : Text) :
    numeric? dialect c (c :: behind) = .ok (Escape.read? dialect (c :: behind)) := by
  have hbehind : ∀ d : Char, d.utf8Size = 1 → sliceFrom (d :: behind) 1 = .ok behind := by
    intro d hd
    exact sliceFrom_eq [d] rfl hd
  unfold numeric?
  split
  · rename_i hoctal
    have hdigit : Escape.octalDigit? c = some (c.toNat - '0'.toNat) := if_pos hoctal
    rw [octalFrom_spec, ok_bind, Escape.read?_of_octalDigit? (by rw [hdigit]; rfl)]
    rfl
  rename_i hoctal
  split
  · rename_i hx
    subst hx
    rw [hbehind 'x' rfl, ok_bind, fixed?_spec (by decide)]
    rfl
  rename_i hx
  split
  · rename_i hu
    subst hu
    rw [hbehind 'u' rfl, ok_bind]
    split
    · rename_i hbrace
      obtain ⟨later, rfl⟩ := begins_iff.mp hbrace
      exact braced?_spec later
    · rename_i hbrace
      rw [utf16?_spec, Escape.read?.eq_3]
      rintro later rfl
      exact hbrace (begins_iff.mpr ⟨later, rfl⟩)
  rename_i hu
  split
  · rename_i hU
    obtain ⟨rfl, rfl⟩ := hU
    rw [hbehind 'U' rfl, ok_bind, fixed?_spec (by decide)]
    rfl
  · have hnone : Escape.octalDigit? c = none := if_neg hoctal
    unfold Escape.read?
    split <;> simp_all

/-! ## Whole literals -/

section

variable {dialect : Dialect} {rest : Text}

theorem decodeEscape_of_read? {escape : Escape} (h : Escape.read? dialect rest = some escape) :
    decodeEscape dialect ('\\' :: rest) = .ok ([escape.char], escape.width + 1) := by
  have hrest : sliceFrom ('\\' :: rest) 1 = .ok rest := sliceFrom_eq ['\\'] rfl rfl
  have hbegins : begins "\\" ('\\' :: rest) = true := rfl
  rw [decodeEscape, ensure_eq hbegins, ok_bind, hrest, ok_bind]
  cases rest with
  | nil => cases h
  | cons c behind =>
    simp only [numeric?_spec, h, ok_bind]
    rfl

theorem decodeEscape_of_read?_eq_none (h : Escape.read? dialect rest = none) :
    decodeEscape dialect ('\\' :: rest) = .ok ('\\' :: rest.take 1, byteLength ('\\' :: rest.take 1)) := by
  have hrest : sliceFrom ('\\' :: rest) 1 = .ok rest := sliceFrom_eq ['\\'] rfl rfl
  have hbegins : begins "\\" ('\\' :: rest) = true := rfl
  rw [decodeEscape, ensure_eq hbegins, ok_bind, hrest, ok_bind]
  cases rest with
  | nil =>
    have hliteral : sliceTo ['\\'] 1 = .ok ['\\'] := sliceTo_eq [] (List.append_nil _).symm rfl
    rw [hliteral]
    rfl
  | cons c behind =>
    have hwidth : byteLength ['\\', c] = 1 + c.utf8Size := rfl
    have hliteral : sliceTo ('\\' :: c :: behind) (1 + c.utf8Size) = .ok ['\\', c] :=
      sliceTo_eq behind rfl hwidth
    simp only [numeric?_spec, h, ok_bind, hliteral]
    rfl

theorem decodeEscape_spec (dialect : Dialect) (rest : Text) :
    ∃ text taken behind, decodeEscape dialect ('\\' :: rest) = .ok (text, byteLength taken) ∧
      '\\' :: rest = taken ++ behind ∧ taken ≠ [] ∧
      Escape.decode dialect ('\\' :: rest) = text ++ Escape.decode dialect behind := by
  rw [Escape.decode, if_pos rfl]
  cases hread : Escape.read? dialect rest with
  | some escape =>
    obtain ⟨form, behind, n, rfl, names, rfl⟩ := Escape.exists_names_of_read? hread
    refine ⟨[Char.ofNat n], '\\' :: form, behind, ?_, rfl, by simp, by simp⟩
    rw [decodeEscape_of_read? hread, byteLength_cons, names.byteLength_eq, Nat.add_comm]
    rfl
  | none =>
    refine ⟨_, '\\' :: rest.take 1, rest.drop 1, decodeEscape_of_read?_eq_none hread, ?_, by simp, rfl⟩
    rw [List.cons_append, List.take_append_drop]

end

theorem decode_append {before : Text} (h : '\\' ∉ before) (dialect : Dialect) (behind : Text) :
    Escape.decode dialect (before ++ behind) = before ++ Escape.decode dialect behind := by
  induction before with
  | nil => rfl
  | cons c before ih =>
    rw [List.mem_cons, not_or] at h
    rw [List.cons_append, Escape.decode, if_neg (Ne.symm h.1), ih h.2]
    rfl

theorem decodeFrom_spec (dialect : Dialect) {rounds : Nat} {rest : Text} (h : rest.length < rounds) :
    decodeFrom dialect rounds rest = .ok (Escape.decode dialect rest) := by
  induction rounds generalizing rest with
  | zero => omega
  | succ rounds ih =>
    rw [decodeFrom, find?]
    by_cases hmem : '\\' ∈ rest
    · obtain ⟨before, later, rfl, hbefore⟩ := List.eq_append_cons_of_mem hmem
      have hsplit : split? "\\" (before ++ '\\' :: later) = some (before, later) :=
        split?_of_not_mem hbefore later
      obtain ⟨text, taken, behind, hescape, htaken, hne, hdecode⟩ := decodeEscape_spec dialect later
      have hbehind : sliceFrom (before ++ '\\' :: later) (byteLength before + byteLength taken) =
          .ok behind := by
        rw [htaken, ← List.append_assoc]
        exact sliceFrom_eq (before ++ taken) rfl (byteLength_append ..)
      have hless : behind.length < rounds := by
        have := List.length_pos_iff.mpr hne
        rw [htaken, List.length_append, List.length_append] at h
        omega
      simp only [hsplit, Option.map_some, sliceTo_eq _ rfl rfl, sliceFrom_eq before rfl rfl, hescape, hbehind,
        ok_bind, ih hless, pure_eq_ok]
      rw [decode_append hbefore, hdecode, List.append_assoc]
    · have hsplit : split? "\\" rest = none := split?_eq_none_of_not_mem hmem
      have hdecode := decode_append hmem dialect []
      rw [List.append_nil, Escape.decode, List.append_nil] at hdecode
      rw [hsplit, hdecode]
      rfl

theorem decode_spec (dialect : Dialect) (body : Text) :
    decode dialect body = .ok (Escape.decode dialect body) :=
  decodeFrom_spec dialect (Nat.lt_succ_of_le (length_le_byteLength body))

end Guarded

end Phrasebook
