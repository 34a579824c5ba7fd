import Phrasebook.Proofs.Escape.Forms
import Phrasebook.Proofs.Guarded.Escape

/-!
# The pieces of a literal

The body of a literal falls in one way into runs without a backslash, numeric escapes, and backslashes
that are kept with the character behind them. Decoding goes from piece to piece, and only a numeric escape
has a value of its own, which is shorter than the escape.
-/

namespace Phrasebook.Escape

open CodePoint Text

/-! ## Pieces -/

/-- A part of the body of a literal. -/
inductive Piece where
  | run (text : Text)
  /-- A backslash with the text behind it that names `c`. -/
  | numeric (form : Text) (c : Char)
  /-- A backslash with what is copied together with it. -/
  | kept (behind : Text)

namespace Piece

def source : Piece → Text
  | run text => text
  | numeric form _ => '\\' :: form
  | kept behind => '\\' :: behind

def value : Piece → Text
  | run text => text
  | numeric _ c => [c]
  | kept behind => '\\' :: behind

/-- In front of `rest` the piece is one of the body. -/
inductive Fits (dialect : Dialect) : Piece → Text → Prop where
  | run {text rest : Text} (something : text ≠ []) (plain : '\\' ∉ text)
    (whole : ∀ c ∈ rest.head?, c = '\\') : Fits dialect (run text) rest
  | numeric {form rest : Text} {c : Char} (begins : Begins dialect form c.toNat (form ++ rest)) :
    Fits dialect (numeric form c) rest
  | kept {c : Char} {rest : Text} (nothing : ∀ form n, Names dialect form n → ¬ form <+: c :: rest) :
    Fits dialect (kept [c]) rest
  | alone : Fits dialect (kept []) []

end Piece

/-- The body, from left to right. -/
inductive Pieces (dialect : Dialect) : Text → List Piece → Prop where
  | nil : Pieces dialect [] []
  | cons {piece : Piece} {rest : Text} {later : List Piece} (fits : piece.Fits dialect rest)
    (pieces : Pieces dialect rest later) : Pieces dialect (piece.source ++ rest) (piece :: later)

/-- What the decoder takes first from a body. -/
def first (dialect : Dialect) : Text → Piece
  | [] => .run []
  | c :: rest =>
    if c = '\\' then
      match read? dialect rest with
      | some escape => .numeric (rest.take escape.width) escape.char
      | none => .kept (rest.take 1)
    else .run ((c :: rest).takeWhile (· ≠ '\\'))

section

variable {dialect : Dialect} {piece : Piece} {body rest : Text} {pieces others : List Piece}

theorem Begins.read? {form text : Text} {c : Char} (h : Begins dialect form c.toNat text) :
    Escape.read? dialect text = some ⟨c, form.length⟩ :=
  read?_eq_some_iff.mpr ⟨form, c.toNat, h, by rw [Char.ofNat_toNat]⟩

theorem Piece.Fits.ne_nil (h : piece.Fits dialect rest) : piece.source ≠ [] := by
  cases h with
  | run something => exact something
  | numeric | kept | alone => exact List.cons_ne_nil _ _

theorem Piece.Fits.eq_first (h : piece.Fits dialect rest) :
    piece = first dialect (piece.source ++ rest) := by
  cases h with
  | @run text rest something plain whole =>
    obtain ⟨c, text, rfl⟩ := List.exists_cons_of_ne_nil something
    have hc : c ≠ '\\' := fun h => plain (h ▸ List.mem_cons_self)
    have hrest : rest.takeWhile (· ≠ '\\') = [] := by
      cases rest with
      | nil => rfl
      | cons d rest => simp [whole d rfl]
    have htake : (c :: text ++ rest).takeWhile (· ≠ '\\') = c :: text := by
      rw [List.takeWhile_append_of_pos, hrest, List.append_nil]
      intro d hd
      simpa using ne_of_mem_of_not_mem hd plain
    rw [source, List.cons_append, first, if_neg hc, ← List.cons_append, htake]
  | numeric begins =>
    rw [source, List.cons_append, first, if_pos rfl, begins.read?]
    simp
  | kept nothing =>
    rw [source, List.cons_append, first, if_pos rfl, List.singleton_append, read?_eq_none_iff.mpr nothing]
    rfl
  | alone => rfl

/-- A third octal digit would not fit into a byte. -/
example : first .cFamily "\\400" = .numeric "40" ' ' := rfl

theorem exists_fits (dialect : Dialect) (h : body ≠ []) :
    ∃ (piece : Piece) (rest : Text), body = piece.source ++ rest ∧ piece.Fits dialect rest := by
  obtain ⟨c, rest, rfl⟩ := List.exists_cons_of_ne_nil h
  by_cases hc : c = '\\'
  · subst hc
    cases hread : read? dialect rest with
    | some escape =>
      obtain ⟨form, n, begins, rfl⟩ := read?_eq_some_iff.mp hread
      have hn := toNat_ofNat begins.names.isValidChar
      obtain ⟨behind, rfl⟩ := begins.front
      exact ⟨.numeric form (Char.ofNat n), behind, rfl, .numeric (by rwa [hn])⟩
    | none =>
      have nothing := read?_eq_none_iff.mp hread
      cases rest with
      | nil => exact ⟨.kept [], [], rfl, .alone⟩
      | cons d behind => exact ⟨.kept [d], behind, rfl, .kept nothing⟩
  · refine ⟨.run ((c :: rest).takeWhile (· ≠ '\\')), (c :: rest).dropWhile (· ≠ '\\'),
      by rw [Piece.source, List.takeWhile_append_dropWhile], .run ?_ ?_ ?_⟩
    · simp [hc]
    · intro hmem
      simpa using List.mem_takeWhile_imp hmem
    · intro d hd
      have := List.head?_dropWhile_not (· ≠ '\\') (c :: rest)
      rw [Option.mem_def.mp hd] at this
      simpa using this

/-! ## The body as a whole -/

theorem exists_pieces (dialect : Dialect) (body : Text) : ∃ pieces, Pieces dialect body pieces := by
  induction hlength : body.length using Nat.strong_induction_on generalizing body with
  | _ length ih =>
    by_cases hbody : body = []
    · exact ⟨[], hbody ▸ .nil⟩
    · obtain ⟨piece, rest, rfl, fits⟩ := exists_fits dialect hbody
      have := List.length_pos_iff.mpr fits.ne_nil
      rw [List.length_append] at hlength
      obtain ⟨later, hlater⟩ := ih rest.length (by omega) rest rfl
      exact ⟨piece :: later, .cons fits hlater⟩

theorem Pieces.unique (h : Pieces dialect body pieces) (h' : Pieces dialect body others) :
    others = pieces := by
  induction h generalizing others with
  | nil =>
    generalize hbody : ([] : Text) = body at h'
    cases h' with
    | nil => rfl
    | cons fits => exact absurd (List.append_eq_nil_iff.mp hbody.symm).1 fits.ne_nil
  | @cons piece rest later fits _ ih =>
    generalize hbody : piece.source ++ rest = body at h'
    cases h' with
    | nil => exact absurd (List.append_eq_nil_iff.mp hbody).1 fits.ne_nil
    | cons fits' pieces' =>
      have hpiece := fits'.eq_first
      rw [← hbody, ← fits.eq_first] at hpiece
      subst hpiece
      obtain rfl := List.append_cancel_left hbody
      rw [ih pieces']

theorem Pieces.source_eq (h : Pieces dialect body pieces) : pieces.flatMap Piece.source = body := by
  induction h with
  | nil => rfl
  | cons _ _ ih => rw [List.flatMap_cons, ih]

theorem Pieces.fits {before behind : List Piece}
    (h : Pieces dialect body (before ++ piece :: behind)) :
    piece.Fits dialect (behind.flatMap Piece.source) := by
  induction before generalizing body with
  | nil =>
    cases h with
    | cons fits later => rwa [later.source_eq]
  | cons _ before ih =>
    cases h with
    | cons _ later => exact ih later

/-! ## Piece by piece -/

theorem decode_kept (h : read? dialect rest = none) :
    decode dialect ('\\' :: rest) = '\\' :: rest.take 1 ++ decode dialect (rest.drop 1) := by
  rw [decode, if_pos rfl, h]

theorem Piece.Fits.decode_eq (h : piece.Fits dialect rest) :
    decode dialect (piece.source ++ rest) = piece.value ++ decode dialect rest := by
  cases h with
  | run _ plain => exact Guarded.decode_append plain dialect rest
  | numeric begins => exact decode_escape begins.read?
  | kept nothing => exact decode_kept (read?_eq_none_iff.mpr nothing)
  | alone => exact decode_kept rfl

/-- The decoder takes an escape off by its bytes. -/
theorem Piece.Fits.decodeEscape_eq (h : piece.Fits dialect rest) (escape : ∀ text, piece ≠ .run text) :
    Guarded.decodeEscape dialect (piece.source ++ rest) = .ok (piece.value, byteLength piece.source) := by
  cases h with
  | run => exact absurd rfl (escape _)
  | numeric begins =>
    rw [source, List.cons_append, Guarded.decodeEscape_of_read? begins.read?, byteLength_cons,
      begins.names.byteLength_eq, Nat.add_comm]
    rfl
  | kept nothing => exact Guarded.decodeEscape_of_read?_eq_none (read?_eq_none_iff.mpr nothing)
  | alone => exact Guarded.decodeEscape_of_read?_eq_none rfl

theorem Pieces.decode_eq (h : Pieces dialect body pieces) :
    decode dialect body = pieces.flatMap Piece.value := by
  induction h with
  | nil => rw [decode, List.flatMap_nil]
  | cons fits _ ih => rw [fits.decode_eq, ih, List.flatMap_cons]

/-! ## Lengths -/

/-- No character has more bytes than an escape that names it has digits and marks. -/
theorem Names.utf8Size_le {form : Text} {n : Nat} (h : Names dialect form n) :
    (Char.ofNat n).utf8Size ≤ form.length := by
  have hfour := (Char.ofNat n).utf8Size_le_four
  have hbyte : ∀ n < 0x100, (Char.ofNat n).utf8Size ≤ 2 := by decide +kernel
  have hdigit : ∀ n < 8, (Char.ofNat n).utf8Size = 1 := by decide
  cases h with
  | octal h least most byte =>
    have hlt := h.lt
    have htwo := hbyte n (by omega)
    by_cases hone : form.length = 1
    · rw [hone] at hlt ⊢
      exact (hdigit n hlt).le
    · omega
  | two h two =>
    have hlt := h.lt
    rw [two] at hlt
    rw [List.length_cons, two]
    exact (hbyte n hlt).trans (by decide)
  | four | pair | braced | eight =>
    simp only [List.length_cons, List.length_append]
    omega

theorem Piece.Fits.byteLength_le (h : piece.Fits dialect rest) :
    byteLength piece.value ≤ byteLength piece.source ∧
      (byteLength piece.value = byteLength piece.source → ∀ form c, piece ≠ .numeric form c) := by
  cases h with
  | run | kept | alone => exact ⟨Nat.le_refl _, by simp⟩
  | @numeric form rest c begins =>
    have hsize := begins.names.utf8Size_le
    rw [Char.ofNat_toNat] at hsize
    have hless : byteLength (Piece.numeric form c).value < byteLength (Piece.numeric form c).source := by
      rw [value, source, byteLength_cons, byteLength_cons, begins.names.byteLength_eq, byteLength_nil]
      have := '\\'.utf8Size_pos
      omega
    exact ⟨hless.le, fun h => absurd h hless.ne⟩

theorem Pieces.byteLength_le (h : Pieces dialect body pieces) :
    byteLength (decode dialect body) ≤ byteLength body ∧
      (byteLength (decode dialect body) = byteLength body → ∀ form c, .numeric form c ∉ pieces) := by
  induction h with
  | nil => exact ⟨by rw [decode], by simp⟩
  | cons fits _ ih =>
    obtain ⟨hle, hnumeric⟩ := fits.byteLength_le
    obtain ⟨hlater, hnumerics⟩ := ih
    rw [fits.decode_eq, byteLength_append, byteLength_append]
    refine ⟨by omega, ?_⟩
    -- Neither part is longer than its source, so equal sums have equal parts.
    intro hlength form c hmem
    rcases List.mem_cons.mp hmem with rfl | hmem
    · exact hnumeric (by omega) form c rfl
    · exact hnumerics (by omega) form c hmem

theorem Pieces.decode_eq_body (h : Pieces dialect body pieces)
    (hnone : ∀ form c, .numeric form c ∉ pieces) : decode dialect body = body := by
  have hvalue : ∀ piece ∈ pieces, piece.value = piece.source := by
    intro piece hpiece
    cases piece with
    | run | kept => rfl
    | numeric form c => exact absurd hpiece (hnone form c)
  rw [h.decode_eq, List.flatMap_congr hvalue, h.source_eq]

end

/-- A body falls into its pieces in one way only. Decoding takes them off from left to right, each escape
with at least one byte and up to the end of a character, and gives their values. The value of the body is no
longer than the body, and it has the same length only if it is the same text, which it is exactly if no
numeric escape was decoded. -/
theorem decode_pieces (dialect : Dialect) (body : Text) :
    ∃ pieces, (∀ others, Pieces dialect body others ↔ others = pieces) ∧
      pieces.flatMap Piece.source = body ∧
      (∀ piece ∈ pieces, 1 ≤ byteLength piece.source) ∧
      (∀ before piece behind, pieces = before ++ piece :: behind → (∀ text, piece ≠ .run text) →
        Guarded.decodeEscape dialect (piece.source ++ behind.flatMap Piece.source) =
          .ok (piece.value, byteLength piece.source)) ∧
      decode dialect body = pieces.flatMap Piece.value ∧
      Guarded.decode dialect body = .ok (pieces.flatMap Piece.value) ∧
      byteLength (decode dialect body) ≤ byteLength body ∧
      (byteLength (decode dialect body) = byteLength body ↔ decode dialect body = body) ∧
      (decode dialect body = body ↔ ∀ form c, .numeric form c ∉ pieces) := by
  obtain ⟨pieces, hpieces⟩ := exists_pieces dialect body
  obtain ⟨hle, hnumeric⟩ := hpieces.byteLength_le
  refine ⟨pieces, ?_, hpieces.source_eq, ?_, ?_, hpieces.decode_eq, ?_, hle, ?_, ?_⟩
  · intro others
    constructor
    · exact hpieces.unique
    · rintro rfl
      exact hpieces
  · intro piece hpiece
    obtain ⟨before, behind, rfl⟩ := List.append_of_mem hpiece
    exact (List.length_pos_iff.mpr hpieces.fits.ne_nil).trans_le (length_le_byteLength _)
  · rintro before piece behind rfl escape
    exact hpieces.fits.decodeEscape_eq escape
  · rw [Guarded.decode_spec, hpieces.decode_eq]
  · exact ⟨fun hlength => hpieces.decode_eq_body (hnumeric hlength), congrArg byteLength⟩
  · exact ⟨fun hbody => hnumeric (congrArg byteLength hbody), hpieces.decode_eq_body⟩

end Phrasebook.Escape
