import Phrasebook.Proofs.Escape.Forms

/-!
# What a literal denotes

A value still holds escapes: those of two characters stay as they are written, and a malformed one is
copied. So a value is the body of a literal again. It denotes what its own literal denotes exactly if
no backslash that stands alone in it comes to begin an escape.
-/

namespace Phrasebook.Escape

open CodePoint

/-! ## Denotation -/

/-- The character that an escape of two characters names, by the one behind the backslash. -/
def named? : Char → Option Char
  | 'n' => some '\n'
  | 't' => some '\t'
  | 'r' => some '\r'
  | 'b' => some '\x08'
  | 'f' => some '\x0c'
  | 'v' => some '\x0b'
  | '\\' => some '\\'
  | '"' => some '"'
  | '\'' => some '\''
  | _ => none

/-- The escape at the beginning of what follows a backslash, a numeric one or one of two characters. -/
def escape? (dialect : Dialect) (text : Text) : Option Escape :=
  (read? dialect text).or ((text.head?.bind named?).map (⟨·, 1⟩))

/-- The string that the body of a literal denotes. What begins no escape stands for itself. -/
def meaning (dialect : Dialect) : Text → Text
  | [] => []
  | c :: rest =>
    match if c = '\\' then escape? dialect rest else none with
    | some escape => escape.char :: meaning dialect (rest.drop escape.width)
    | none => c :: meaning dialect rest
  termination_by body => body.length
  decreasing_by all_goals simp only [List.length_drop, List.length_cons]; omega

/-- A backslash before the value of the body begins no escape there, or one that stands for the same two
characters as they do apart. -/
inductive Inert (dialect : Dialect) : Text → Prop where
  | free {body : Text} (h : escape? dialect (decode dialect body) = none) : Inert dialect body
  /-- Two backslashes denote one, and the quote behind them itself. -/
  | quote {mark : Char} (body : Text) (h : mark = '"' ∨ mark = '\'') : Inert dialect ('\\' :: mark :: body)
  | backslash {body : Text} (later : Inert dialect body) : Inert dialect ('\\' :: '\\' :: body)

/-- Each backslash that the value of the body holds alone is inert: one that a numeric escape names, and
one that begins a malformed escape. -/
inductive Faithful (dialect : Dialect) : Text → Prop where
  | nil : Faithful dialect []
  | plain {c : Char} {rest : Text} (h : c ≠ '\\') (later : Faithful dialect rest) :
    Faithful dialect (c :: rest)
  | numeric {rest : Text} {escape : Escape} (h : read? dialect rest = some escape)
    (alone : escape.char = '\\' → Inert dialect (rest.drop escape.width))
    (later : Faithful dialect (rest.drop escape.width)) : Faithful dialect ('\\' :: rest)
  | named {c d : Char} {rest : Text} (h : named? c = some d) (later : Faithful dialect rest) :
    Faithful dialect ('\\' :: c :: rest)
  | malformed {rest : Text} (h : escape? dialect rest = none) (alone : Inert dialect rest)
    (later : Faithful dialect rest) : Faithful dialect ('\\' :: rest)

section

variable {dialect : Dialect} {c d : Char} {rest body : Text} {escape : Escape}

/-! ## Steps -/

theorem read?_of_named (h : named? c = some d) (rest : Text) : read? dialect (c :: rest) = none := by
  unfold named? at h
  split at h
  case h_10 => cases h
  all_goals rfl

theorem escape?_of_named (h : named? c = some d) (rest : Text) :
    escape? dialect (c :: rest) = some ⟨d, 1⟩ := by
  rw [escape?, read?_of_named h, Option.none_or, List.head?_cons, Option.bind_some, h, Option.map_some]

theorem escape?_of_read? (h : read? dialect rest = some escape) :
    escape? dialect rest = some escape := by
  rw [escape?, h, Option.some_or]

/-- Where a backslash begins an escape, it is a numeric one or one of two characters. -/
theorem escape?_cases (h : escape? dialect rest = some escape) :
    read? dialect rest = some escape ∨
      ∃ c d behind, rest = c :: behind ∧ named? c = some d ∧ escape = ⟨d, 1⟩ := by
  rcases Option.or_eq_some_iff.mp h with hread | ⟨-, hnamed⟩
  · exact .inl hread
  · right
    obtain ⟨d, hd, rfl⟩ := Option.map_eq_some_iff.mp hnamed
    obtain ⟨c, hc, hname⟩ := Option.bind_eq_some_iff.mp hd
    obtain ⟨behind, rfl⟩ := List.head?_eq_some_iff.mp hc
    exact ⟨c, d, behind, rfl, hname, rfl⟩

theorem read?_of_escape?_eq_none (h : escape? dialect rest = none) : read? dialect rest = none :=
  (Option.or_eq_none_iff.mp h).1

theorem head?_ne_of_escape?_eq_none (h : escape? dialect rest = none) : rest.head? ≠ some '\\' := by
  intro hhead
  obtain ⟨behind, rfl⟩ := List.head?_eq_some_iff.mp hhead
  rw [escape?_of_named rfl] at h
  cases h

@[simp] theorem meaning_nil : meaning dialect [] = [] := by rw [meaning]

theorem meaning_plain (h : c ≠ '\\') (rest : Text) :
    meaning dialect (c :: rest) = c :: meaning dialect rest := by
  rw [meaning, if_neg h]

theorem meaning_escape (h : escape? dialect rest = some escape) :
    meaning dialect ('\\' :: rest) = escape.char :: meaning dialect (rest.drop escape.width) := by
  rw [meaning, if_pos rfl, h]

theorem meaning_named (h : named? c = some d) (rest : Text) :
    meaning dialect ('\\' :: c :: rest) = d :: meaning dialect rest :=
  meaning_escape (escape?_of_named h rest)

theorem meaning_alone (h : escape? dialect rest = none) :
    meaning dialect ('\\' :: rest) = '\\' :: meaning dialect rest := by
  rw [meaning, if_pos rfl, h]

@[simp] theorem decode_nil : decode dialect [] = [] := by rw [decode]

theorem decode_numeric (h : read? dialect rest = some escape) :
    decode dialect ('\\' :: rest) = escape.char :: decode dialect (rest.drop escape.width) := by
  rw [decode, if_pos rfl, h]

theorem decode_named (h : named? c = some d) (rest : Text) :
    decode dialect ('\\' :: c :: rest) = '\\' :: c :: decode dialect rest := by
  rw [decode, if_pos rfl, read?_of_named h]
  rfl

theorem decode_malformed (h : escape? dialect rest = none) :
    decode dialect ('\\' :: rest) = '\\' :: decode dialect rest := by
  rw [decode, if_pos rfl, read?_of_escape?_eq_none h]
  cases rest with
  | nil => simp
  | cons c rest =>
    have hc : c ≠ '\\' := by simpa using head?_ne_of_escape?_eq_none h
    rw [decode_plain hc]
    rfl

end

/-- A body begins with a plain character, a numeric escape, one of two characters, or a backslash that
begins no escape. -/
@[elab_as_elim]
theorem body_cases (dialect : Dialect) {motive : Text → Prop} (body : Text) (nil : motive [])
    (plain : ∀ c rest, c ≠ '\\' → motive (c :: rest))
    (numeric : ∀ rest escape, read? dialect rest = some escape → motive ('\\' :: rest))
    (named : ∀ c d rest, named? c = some d → motive ('\\' :: c :: rest))
    (malformed : ∀ rest, escape? dialect rest = none → motive ('\\' :: rest)) : motive body := by
  match body with
  | [] => exact nil
  | c :: rest =>
    by_cases hc : c = '\\'
    · subst hc
      cases h : escape? dialect rest with
      | none => exact malformed rest h
      | some escape =>
        rcases escape?_cases h with hread | ⟨c, d, behind, rfl, hname, -⟩
        · exact numeric rest escape hread
        · exact named c d behind hname
    · exact plain c rest hc

/-! ## The text of a numeric escape -/

/-- The text of a numeric escape behind its backslash. A second backslash stands only between the halves
of a surrogate pair. -/
inductive NumericForm : Text → Prop where
  | one {text : Text} (something : text ≠ []) (h : '\\' ∉ text) : NumericForm text
  | two {high low : Text} (hhigh : '\\' ∉ high) (hlow : '\\' ∉ low) :
    NumericForm (high ++ '\\' :: 'u' :: low)

theorem Names.numericForm {dialect : Dialect} {form : Text} {n : Nat} (h : Names dialect form n) :
    NumericForm form := by
  have hhex : ∀ {digits n}, Writes 16 digits n → '\\' ∉ digits := not_mem_of_writes (by decide)
  cases h with
  | octal h least =>
    exact .one (List.length_pos_iff.mp least) (not_mem_of_writes (by decide) h)
  | two h | four h | eight _ h => exact .one (List.cons_ne_nil _ _) (by simp [hhex h])
  | pair hhigh _ _ hlow => exact .two (by simp [hhex hhigh]) (hhex hlow)
  | braced h => exact .one (List.cons_ne_nil _ _) (by simp [hhex h])

/-- What a numeric escape takes behind its backslash. -/
theorem exists_form_of_read? {dialect : Dialect} {text : Text} {escape : Escape}
    (h : read? dialect text = some escape) :
    ∃ inside behind, text = inside ++ behind ∧ inside.length = escape.width ∧ NumericForm inside := by
  obtain ⟨form, behind, n, rfl, names, rfl⟩ := exists_names_of_read? h
  exact ⟨form, behind, rfl, rfl, names.numericForm⟩

/-! ## What stands behind a part of the value -/

section

variable {dialect : Dialect} {c : Char} {body inside behind : Text}

/-- A character of the value that is no backslash denotes itself, and what is behind it is the value of
a shorter body. -/
theorem exists_behind_char (hc : c ≠ '\\') (h : decode dialect body = c :: behind) :
    ∃ later, decode dialect later = behind ∧ meaning dialect body = c :: meaning dialect later ∧
      later.length < body.length := by
  cases body using body_cases dialect with
  | nil => simp at h
  | plain d rest hd =>
    rw [decode_plain hd] at h
    cases h
    exact ⟨rest, rfl, meaning_plain hd rest, Nat.lt_succ_self _⟩
  | numeric rest escape hread =>
    rw [decode_numeric hread] at h
    cases h
    refine ⟨_, rfl, meaning_escape (escape?_of_read? hread), ?_⟩
    simp only [List.length_drop, List.length_cons]
    omega
  | named d e rest hd =>
    rw [decode_named hd] at h
    cases h
    exact absurd rfl hc
  | malformed rest hrest =>
    rw [decode_malformed hrest] at h
    cases h
    exact absurd rfl hc

/-- A backslash of the value begins an escape of two characters or stands alone. -/
theorem exists_behind_backslash (h : decode dialect body = '\\' :: behind) :
    (∃ c d rest, body = '\\' :: c :: rest ∧ named? c = some d ∧ behind = c :: decode dialect rest) ∨
      (∀ c rest, body = '\\' :: c :: rest → named? c = none) ∧
        ∃ later, decode dialect later = behind ∧ meaning dialect body = '\\' :: meaning dialect later ∧
          later.length < body.length := by
  cases body using body_cases dialect with
  | nil => simp at h
  | plain d rest hd =>
    rw [decode_plain hd] at h
    cases h
    exact absurd rfl hd
  | numeric rest escape hread =>
    rw [decode_numeric hread, List.cons.injEq] at h
    obtain ⟨hchar, rfl⟩ := h
    refine .inr ⟨?_, _, rfl, by rw [meaning_escape (escape?_of_read? hread), hchar], ?_⟩
    · rintro c later heq
      cases heq
      rw [Option.eq_none_iff_forall_ne_some]
      intro d hname
      rw [read?_of_named hname] at hread
      cases hread
    · simp only [List.length_drop, List.length_cons]
      omega
  | named d e rest hd =>
    rw [decode_named hd] at h
    cases h
    exact .inl ⟨d, e, rest, rfl, hd, rfl⟩
  | malformed rest hrest =>
    rw [decode_malformed hrest] at h
    cases h
    refine .inr ⟨?_, rest, rfl, meaning_alone hrest, Nat.lt_succ_self _⟩
    rintro c later heq
    cases heq
    rw [Option.eq_none_iff_forall_ne_some]
    intro d hname
    rw [escape?_of_named hname] at hrest
    cases hrest

theorem exists_behind_plain (hplain : '\\' ∉ inside) (h : decode dialect body = inside ++ behind) :
    ∃ later, decode dialect later = behind ∧ meaning dialect body = inside ++ meaning dialect later ∧
      later.length + inside.length ≤ body.length := by
  induction inside generalizing body with
  | nil => exact ⟨body, h, rfl, Nat.le_refl _⟩
  | cons c inside ih =>
    rw [List.mem_cons, not_or] at hplain
    obtain ⟨middle, hmiddle, hmeaning, hshorter⟩ := exists_behind_char (Ne.symm hplain.1) h
    obtain ⟨later, hlater, hrest, hle⟩ := ih hplain.2 hmiddle
    exact ⟨later, hlater, by rw [hmeaning, hrest, List.cons_append], by rw [List.length_cons]; omega⟩

/-- A numeric escape that is read in the value ends where a part of the body does. -/
theorem exists_behind_form (form : NumericForm inside) (h : decode dialect body = inside ++ behind) :
    ∃ later, decode dialect later = behind ∧
      (meaning dialect later).length < (meaning dialect body).length ∧ later.length < body.length := by
  cases form with
  | one something hplain =>
    obtain ⟨later, hlater, hmeaning, hle⟩ := exists_behind_plain hplain h
    have := List.length_pos_iff.mpr something
    refine ⟨later, hlater, ?_, by omega⟩
    rw [hmeaning, List.length_append]
    omega
  | @two high low hhigh hlow =>
    rw [List.append_assoc] at h
    obtain ⟨first, hfirst, hmeaning, hle⟩ := exists_behind_plain hhigh h
    rcases exists_behind_backslash hfirst with
      ⟨c, d, rest, -, hname, hbehind⟩ | ⟨-, second, hsecond, halone, hless⟩
    · -- No escape of two characters begins with `u`.
      obtain ⟨rfl, -⟩ := List.cons_eq_cons.mp hbehind
      cases hname
    · have hlow' : '\\' ∉ 'u' :: low := by simp [hlow]
      obtain ⟨later, hlater, hrest, hle'⟩ := exists_behind_plain hlow' hsecond
      refine ⟨later, hlater, ?_, by omega⟩
      rw [hmeaning, halone, hrest]
      simp only [List.length_append, List.length_cons]
      omega

theorem exists_behind_escape {escape : Escape} (h : read? dialect (decode dialect body) = some escape) :
    ∃ later, decode dialect later = (decode dialect body).drop escape.width ∧
      (meaning dialect later).length < (meaning dialect body).length ∧ later.length < body.length := by
  obtain ⟨inside, behind, hwhole, hlength, form⟩ := exists_form_of_read? h
  rw [hwhole, List.drop_left' hlength]
  exact exists_behind_form form hwhole

end

/-! ## Decoding never makes a denotation longer -/

section

variable {dialect : Dialect} {c d : Char} {rest body behind : Text}

/-- The value denotes no more characters than the body, and a backslash before it adds at most one. -/
def Bounded (dialect : Dialect) (body : Text) : Prop :=
  (meaning dialect (decode dialect body)).length ≤ (meaning dialect body).length ∧
    (meaning dialect ('\\' :: decode dialect body)).length ≤ (meaning dialect body).length + 1

theorem length_meaning_decode_le_of_shorter
    (shorter : ∀ later : Text, later.length < body.length → Bounded dialect later) :
    (meaning dialect (decode dialect body)).length ≤ (meaning dialect body).length := by
  cases body using body_cases dialect with
  | nil => simp
  | plain c rest hc =>
    rw [decode_plain hc, meaning_plain hc, meaning_plain hc]
    exact Nat.succ_le_succ (shorter rest (Nat.lt_succ_self _)).1
  | numeric rest escape hread =>
    have := shorter (rest.drop escape.width) (by simp only [List.length_drop, List.length_cons]; omega)
    rw [decode_numeric hread, meaning_escape (escape?_of_read? hread), List.length_cons]
    by_cases hchar : escape.char = '\\'
    · rw [hchar]
      exact this.2
    · rw [meaning_plain hchar]
      exact Nat.succ_le_succ this.1
  | named c d rest hname =>
    have := (shorter rest (by simp only [List.length_cons]; omega)).1
    rw [decode_named hname, meaning_named hname, meaning_named hname]
    exact Nat.succ_le_succ this
  | malformed rest hrest =>
    rw [decode_malformed hrest, meaning_alone hrest]
    exact (shorter rest (Nat.lt_succ_self _)).2

theorem length_meaning_backslash_le_of_shorter
    (shorter : ∀ later : Text, later.length < body.length → Bounded dialect later)
    (hvalue : (meaning dialect (decode dialect body)).length ≤ (meaning dialect body).length) :
    (meaning dialect ('\\' :: decode dialect body)).length ≤ (meaning dialect body).length + 1 := by
  cases hescape : escape? dialect (decode dialect body) with
  | none =>
    rw [meaning_alone hescape]
    exact Nat.succ_le_succ hvalue
  | some escape =>
    rw [meaning_escape hescape, List.length_cons, Nat.add_le_add_iff_right]
    rcases escape?_cases hescape with hread | ⟨c, d, behind, hbody, -, rfl⟩
    · obtain ⟨later, hlater, hless, hshorter⟩ := exists_behind_escape hread
      have := (shorter later hshorter).1
      rw [← hlater]
      omega
    rw [hbody, List.drop_one, List.tail_cons]
    by_cases hc : c = '\\'
    · subst hc
      rcases exists_behind_backslash hbody with
        ⟨e, f, rest, rfl, hname, rfl⟩ | ⟨-, later, hlater, halone, hshorter⟩
      · have := shorter rest (by simp only [List.length_cons]; omega)
        rw [meaning_named hname, List.length_cons]
        by_cases he : e = '\\'
        · rw [he]
          exact this.2
        · rw [meaning_plain he]
          exact Nat.succ_le_succ this.1
      · have := (shorter later hshorter).1
        rw [← hlater, halone, List.length_cons]
        omega
    · obtain ⟨later, hlater, halone, hshorter⟩ := exists_behind_char hc hbody
      have := (shorter later hshorter).1
      rw [← hlater, halone, List.length_cons]
      omega

theorem bounded (dialect : Dialect) (body : Text) : Bounded dialect body :=
  have shorter (later : Text) (_ : later.length < body.length) := bounded dialect later
  have hvalue := length_meaning_decode_le_of_shorter shorter
  ⟨hvalue, length_meaning_backslash_le_of_shorter shorter hvalue⟩
  termination_by body.length

/-! ## When a denotation is kept -/

theorem faithful_plain_iff (hc : c ≠ '\\') :
    Faithful dialect (c :: rest) ↔ Faithful dialect rest := by
  refine ⟨fun h => ?_, .plain hc⟩
  cases h with
  | plain _ later => exact later
  | numeric | named | malformed => exact absurd rfl hc

theorem faithful_numeric_iff {escape : Escape} (h : read? dialect rest = some escape) :
    Faithful dialect ('\\' :: rest) ↔ (escape.char = '\\' → Inert dialect (rest.drop escape.width)) ∧
      Faithful dialect (rest.drop escape.width) := by
  refine ⟨fun hfaithful => ?_, fun hparts => .numeric h hparts.1 hparts.2⟩
  cases hfaithful with
  | plain hc => exact absurd rfl hc
  | numeric hread alone later =>
    cases h.symm.trans hread
    exact ⟨alone, later⟩
  | named hname =>
    rw [read?_of_named hname] at h
    cases h
  | malformed hnone =>
    rw [read?_of_escape?_eq_none hnone] at h
    cases h

theorem faithful_named_iff (h : named? c = some d) :
    Faithful dialect ('\\' :: c :: rest) ↔ Faithful dialect rest := by
  refine ⟨fun hfaithful => ?_, .named h⟩
  cases hfaithful with
  | plain hc => exact absurd rfl hc
  | numeric hread =>
    rw [read?_of_named h] at hread
    cases hread
  | named _ later => exact later
  | malformed hnone =>
    rw [escape?_of_named h] at hnone
    cases hnone

theorem faithful_malformed_iff (h : escape? dialect rest = none) :
    Faithful dialect ('\\' :: rest) ↔ Inert dialect rest ∧ Faithful dialect rest := by
  refine ⟨fun hfaithful => ?_, fun hparts => .malformed h hparts.1 hparts.2⟩
  cases hfaithful with
  | plain hc => exact absurd rfl hc
  | numeric hread =>
    rw [read?_of_escape?_eq_none h] at hread
    cases hread
  | named hname =>
    rw [escape?_of_named hname] at h
    cases h
  | malformed _ alone later => exact ⟨alone, later⟩

theorem named?_self_iff : named? c = some c ↔ (c = '"' ∨ c = '\'') ∨ c = '\\' := by
  constructor
  · intro h
    unfold named? at h
    split at h
    case h_10 => cases h
    all_goals revert h; decide
  · rintro ((rfl | rfl) | rfl) <;> rfl

/-- Where an escape begins, the backslash is inert only before one that names its own second character. -/
theorem inert_iff_of_escape {escape : Escape} (h : escape? dialect (decode dialect body) = some escape) :
    Inert dialect body ↔ ∃ c rest, body = '\\' :: c :: rest ∧ named? c = some c ∧
      (c = '\\' → Inert dialect rest) := by
  constructor
  · intro hinert
    cases hinert with
    | free hnone =>
      rw [h] at hnone
      cases hnone
    | @quote c rest hmark =>
      refine ⟨c, rest, rfl, named?_self_iff.mpr (.inl hmark), ?_⟩
      rintro rfl
      exact absurd hmark (by decide)
    | @backslash rest later => exact ⟨'\\', rest, rfl, rfl, fun _ => later⟩
  · rintro ⟨c, rest, rfl, hself, hlater⟩
    rcases named?_self_iff.mp hself with hmark | rfl
    · exact .quote rest hmark
    · exact .backslash (hlater rfl)

theorem eq_backslash_of_named? (hname : named? c = some '\\') : c = '\\' := by
  unfold named? at hname
  split at hname
  case h_10 => cases hname
  all_goals first | rfl | cases hname

/-- The body keeps its denotation if it is faithful, and then a backslash before its value stands for
itself if it is inert. -/
def Settled (dialect : Dialect) (body : Text) : Prop :=
  (meaning dialect (decode dialect body) = meaning dialect body ↔ Faithful dialect body) ∧
    (meaning dialect ('\\' :: decode dialect body) = '\\' :: meaning dialect body ↔
      Inert dialect body ∧ Faithful dialect body)

theorem meaning_decode_iff_of_shorter
    (shorter : ∀ later : Text, later.length < body.length → Settled dialect later) :
    meaning dialect (decode dialect body) = meaning dialect body ↔ Faithful dialect body := by
  cases body using body_cases dialect with
  | nil => simpa using Faithful.nil
  | plain c rest hc =>
    rw [decode_plain hc, meaning_plain hc, meaning_plain hc, List.cons_inj_right, faithful_plain_iff hc]
    exact (shorter rest (Nat.lt_succ_self _)).1
  | numeric rest escape hread =>
    have := shorter (rest.drop escape.width) (by simp only [List.length_drop, List.length_cons]; omega)
    rw [decode_numeric hread, meaning_escape (escape?_of_read? hread), faithful_numeric_iff hread]
    by_cases hchar : escape.char = '\\'
    · rw [hchar, this.2]
      simp
    · rw [meaning_plain hchar, List.cons_inj_right, this.1]
      simp [hchar]
  | named c d rest hname =>
    rw [decode_named hname, meaning_named hname, meaning_named hname, List.cons_inj_right,
      faithful_named_iff hname]
    exact (shorter rest (by simp only [List.length_cons]; omega)).1
  | malformed rest hrest =>
    rw [decode_malformed hrest, meaning_alone hrest, faithful_malformed_iff hrest]
    exact (shorter rest (Nat.lt_succ_self _)).2

/-! ## A backslash before a value -/

/-- With a numeric escape it would denote one character for several. -/
theorem meaning_before_numeric_iff {escape : Escape} (hread : read? dialect (decode dialect body) = some escape) :
    escape.char :: meaning dialect ((decode dialect body).drop escape.width) = '\\' :: meaning dialect body ↔
      Inert dialect body ∧ Faithful dialect body := by
  obtain ⟨later, hlater, hless, -⟩ := exists_behind_escape hread
  have hle := (bounded dialect later).1
  refine iff_of_false ?_ ?_
  · intro heq
    have := congrArg List.length heq
    rw [← hlater, List.length_cons, List.length_cons] at this
    omega
  · rintro ⟨hinert, -⟩
    obtain ⟨c, rest, rfl, hself, -⟩ := (inert_iff_of_escape (escape?_of_read? hread)).mp hinert
    rw [decode_named hself, read?_of_named rfl] at hread
    cases hread

/-- The character of a two-character escape is a backslash only behind a backslash. -/
theorem meaning_before_named_iff (hbody : decode dialect body = c :: behind) (hname : named? c = some d)
    (hc : c ≠ '\\') :
    d :: meaning dialect behind = '\\' :: meaning dialect body ↔
      Inert dialect body ∧ Faithful dialect body := by
  refine iff_of_false ?_ ?_
  · intro heq
    obtain rfl : d = '\\' := (List.cons_eq_cons.mp heq).1
    exact hc (eq_backslash_of_named? hname)
  · rintro ⟨hinert, -⟩
    have hescape : escape? dialect (decode dialect body) = some ⟨d, 1⟩ := by
      rw [hbody, escape?_of_named hname]
    obtain ⟨e, rest, rfl, hself, -⟩ := (inert_iff_of_escape hescape).mp hinert
    rw [decode_named hself] at hbody
    exact hc (List.cons_eq_cons.mp hbody).1.symm

theorem inert_kept_iff (hname : named? c = some d) (rest : Text) :
    Inert dialect ('\\' :: c :: rest) ↔ c = d ∧ (c = '\\' → Inert dialect rest) := by
  have hescape : escape? dialect (decode dialect ('\\' :: c :: rest)) = some ⟨'\\', 1⟩ := by
    rw [decode_named hname]
    exact escape?_of_named rfl _
  rw [inert_iff_of_escape hescape]
  constructor
  · rintro ⟨e, later, heq, hself, hlater⟩
    cases heq
    exact ⟨Option.some.inj (hself.symm.trans hname), hlater⟩
  · rintro ⟨rfl, hlater⟩
    exact ⟨c, rest, rfl, hname, hlater⟩

/-- Two backslashes denote one, so the second one must have been kept together with what it escapes. -/
theorem meaning_before_backslash_iff
    (shorter : ∀ later : Text, later.length < body.length → Settled dialect later)
    (hbody : decode dialect body = '\\' :: behind) :
    meaning dialect behind = meaning dialect body ↔ Inert dialect body ∧ Faithful dialect body := by
  rcases exists_behind_backslash hbody with
    ⟨c, d, rest, rfl, hname, rfl⟩ | ⟨hnone, later, rfl, halone, hshorter⟩
  · have hrest := shorter rest (by simp only [List.length_cons]; omega)
    rw [meaning_named hname, faithful_named_iff hname, inert_kept_iff hname]
    by_cases hc : c = '\\'
    · subst hc
      cases hname
      simpa using hrest.2
    · rw [meaning_plain hc, List.cons_eq_cons, hrest.1]
      simp [hc]
  · -- A backslash that stands alone would take the next one along.
    have hle := (bounded dialect later).1
    refine iff_of_false ?_ ?_
    · intro heq
      have := congrArg List.length heq
      rw [halone, List.length_cons] at this
      omega
    · rintro ⟨hinert, -⟩
      have hescape : escape? dialect (decode dialect body) = some ⟨'\\', 1⟩ := by
        rw [hbody]
        exact escape?_of_named rfl _
      obtain ⟨c, rest, heq, hself, -⟩ := (inert_iff_of_escape hescape).mp hinert
      rw [hnone c rest heq] at hself
      cases hself

theorem meaning_backslash_iff_of_shorter
    (shorter : ∀ later : Text, later.length < body.length → Settled dialect later)
    (hvalue : meaning dialect (decode dialect body) = meaning dialect body ↔ Faithful dialect body) :
    meaning dialect ('\\' :: decode dialect body) = '\\' :: meaning dialect body ↔
      Inert dialect body ∧ Faithful dialect body := by
  cases hescape : escape? dialect (decode dialect body) with
  | none =>
    rw [meaning_alone hescape, List.cons_inj_right, hvalue]
    exact ⟨fun h => ⟨.free hescape, h⟩, fun h => h.2⟩
  | some escape =>
    rw [meaning_escape hescape]
    rcases escape?_cases hescape with hread | ⟨c, d, behind, hbody, hname, rfl⟩
    · exact meaning_before_numeric_iff hread
    · rw [hbody, List.drop_one, List.tail_cons]
      by_cases hc : c = '\\'
      · subst hc
        cases hname
        rw [List.cons_inj_right]
        exact meaning_before_backslash_iff shorter hbody
      · exact meaning_before_named_iff hbody hname hc

theorem settled (dialect : Dialect) (body : Text) : Settled dialect body :=
  have shorter (later : Text) (_ : later.length < body.length) := settled dialect later
  have hvalue := meaning_decode_iff_of_shorter shorter
  ⟨hvalue, meaning_backslash_iff_of_shorter shorter hvalue⟩
  termination_by body.length

end

/-- Decoding keeps what a body denotes exactly if each backslash that stands alone in the value is inert.
So bodies of this kind that denote different strings have different values. -/
theorem meaning_decode_iff (dialect : Dialect) (body : Text) :
    (meaning dialect (decode dialect body) = meaning dialect body ↔ Faithful dialect body) ∧
      ∀ other, Faithful dialect body → Faithful dialect other →
        decode dialect body = decode dialect other → meaning dialect body = meaning dialect other := by
  refine ⟨(settled dialect body).1, fun other hbody hother heq => ?_⟩
  calc meaning dialect body
    _ = meaning dialect (decode dialect body) := ((settled dialect body).1.mpr hbody).symm
    _ = meaning dialect (decode dialect other) := by rw [heq]
    _ = meaning dialect other := (settled dialect other).1.mpr hother

/-- A backslash written as a number stays inert before two backslashes and a quote, and so does one before
a letter that no escape begins with. -/
theorem meaning_decode_numbered_backslash :
    Faithful .go "\\x5c\\\\\\\"\\u12g" ∧ Faithful .go "\\134\\\\\\\"\\u12g" ∧
      decode .go "\\x5c\\\\\\\"\\u12g" = decode .go "\\134\\\\\\\"\\u12g" ∧
      meaning .go "\\x5c\\\\\\\"\\u12g" = "\\\\\"\\u12g" ∧
      meaning .go "\\x5c\\\\\\\"\\u12g" = meaning .go "\\134\\\\\\\"\\u12g" := by
  have hhex := meaning_decode_iff .go "\\x5c\\\\\\\"\\u12g"
  have hoctal := meaning_decode_iff .go "\\134\\\\\\\"\\u12g"
  have faithful := hhex.1.mp (by decide +kernel)
  have other := hoctal.1.mp (by decide +kernel)
  have same : decode .go "\\x5c\\\\\\\"\\u12g" = decode .go "\\134\\\\\\\"\\u12g" := by decide +kernel
  exact ⟨faithful, other, same, by decide +kernel, hhex.2 _ faithful other same⟩

/-- A backslash that a numeric escape names comes to escape what stands behind it, so that two bodies with
different denotations have one value. A malformed escape may be completed by what is decoded behind it. -/
theorem meaning_decode_new_escape :
    meaning .cFamily (decode .cFamily "\\x5cn") ≠ meaning .cFamily "\\x5cn" ∧
      decode .cFamily "\\x5cn" = decode .cFamily "\\n" ∧
      meaning .cFamily "\\x5cn" ≠ meaning .cFamily "\\n" ∧
      meaning .cFamily (decode .cFamily "\\x4\\x31") ≠ meaning .cFamily "\\x4\\x31" := by
  decide +kernel

end Phrasebook.Escape
