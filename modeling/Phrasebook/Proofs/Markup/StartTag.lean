import Phrasebook.Markup.Token
import Phrasebook.Proofs.Text.Blank
import Phrasebook.Proofs.Text.Case
import Phrasebook.Proofs.Text.Search

/-!
# Start tags that are read and written

Reading is tolerant, but what it yields is regular: names are in lower case, and no value holds both
quotes. So a tag that has been read can be written with one kind of quotes, and is read back as it is.
-/

namespace Phrasebook.Markup

open Text Piece

/-! ## What is read -/

structure Attribute.Legal (attr : Attribute) : Prop where
  nonempty : attr.name ≠ []
  part : ∀ c ∈ attr.name, isAttributeNamePart c = true
  lowered : lower attr.name = attr.name
  quotable : ∀ value, attr.value = some value → '"' ∈ value → '\'' ∉ value

structure Tag.Legal (tag : Tag) : Prop where
  head : ∃ c rest, tag.name = c :: rest ∧ c.isAlpha = true
  part : ∀ c ∈ tag.name, isTagNamePart c = true
  lowered : lower tag.name = tag.name
  attributes : ∀ attr ∈ tag.attributes, attr.Legal

@[simp] theorem isTagNamePart_toLower (c : Char) : isTagNamePart c.toLower = isTagNamePart c :=
  apply_toLower (by decide) c

@[simp] theorem isAttributeNamePart_toLower (c : Char) :
    isAttributeNamePart c.toLower = isAttributeNamePart c :=
  apply_toLower (by decide) c

theorem mem_lower {c : Char} {text : Text} (h : c ∈ lower text) : ∃ d ∈ text, c = d.toLower := by
  obtain ⟨d, hd, rfl⟩ := List.mem_map.mp h
  exact ⟨d, hd, rfl⟩

theorem isTagNamePart_of_isAlpha {c : Char} (h : c.isAlpha = true) : isTagNamePart c = true := by
  simp [isTagNamePart, Char.isAlphanum, h]

theorem ne_of_isTagNamePart {c : Char} (h : isTagNamePart c = true) :
    c ≠ '"' ∧ c ≠ '\'' ∧ c ≠ '>' := by
  refine ⟨?_, ?_, ?_⟩ <;> (rintro rfl; revert h; decide)

theorem ne_of_isAttributeNamePart {c : Char} (h : isAttributeNamePart c = true) :
    isBlank c = false ∧ c ≠ '"' ∧ c ≠ '\'' ∧ c ≠ '>' ∧ c ≠ '/' ∧ c ≠ '=' := by
  simpa [isAttributeNamePart, not_or, and_assoc] using h

namespace Attribute

theorem quotable_of_readValue? {text value rest : Text} (h : readValue? text = some (value, rest)) :
    '"' ∈ value → '\'' ∉ value := by
  unfold readValue? at h
  split at h
  · obtain ⟨-, hends⟩ := split?_eq_some_iff.mp h
    intro hin
    exact absurd hin (endsAt_singleton.mp hends)
  · obtain ⟨-, hends⟩ := split?_eq_some_iff.mp h
    intro _
    exact endsAt_singleton.mp hends
  · simp only at h
    split at h
    · cases h
    · cases h
      intro _ hin
      have := List.all_eq_true.mp List.all_takeWhile _ hin
      simp [isBareValuePart] at this

theorem quotable_of_readAssignment? {text value rest : Text}
    (h : readAssignment? text = some (value, rest)) : '"' ∈ value → '\'' ∉ value := by
  unfold readAssignment? at h
  split at h
  · exact quotable_of_readValue? h
  · cases h

theorem legal_of_name {c : Char} {rest : Text} {value : Option Text}
    (hc : isAttributeNamePart c = true)
    (hv : ∀ v, value = some v → '"' ∈ v → '\'' ∉ v) :
    Attribute.Legal ⟨lower (c :: rest.takeWhile isAttributeNamePart), value⟩ := by
  refine ⟨by simp, ?_, lower_lower _, hv⟩
  intro d hd
  obtain ⟨e, he, rfl⟩ := mem_lower hd
  rw [isAttributeNamePart_toLower]
  rcases List.mem_cons.mp he with rfl | he
  · exact hc
  · exact List.all_eq_true.mp List.all_takeWhile e he

theorem legal_of_readAll (text : Text) : ∀ attr ∈ readAll text, attr.Legal := by
  fun_induction readAll text with
  | case1 => simp
  | case2 c rest hc name behind value rest' heq ih =>
    intro attr hattr
    rcases List.mem_cons.mp hattr with rfl | hattr
    · refine legal_of_name hc ?_
      rintro v ⟨⟩
      exact quotable_of_readAssignment? heq
    · exact ih attr hattr
  | case3 c rest hc name behind heq ih =>
    intro attr hattr
    rcases List.mem_cons.mp hattr with rfl | hattr
    · exact legal_of_name hc (by simp)
    · exact ih attr hattr
  | case4 c rest hc ih => exact ih

end Attribute

theorem Tag.legal_read {c : Char} (hc : c.isAlpha = true) (rest : Text) :
    (Tag.read (c :: rest)).Legal := by
  have hname : (c :: rest).takeWhile isTagNamePart = c :: rest.takeWhile isTagNamePart :=
    List.takeWhile_cons_of_pos (isTagNamePart_of_isAlpha hc)
  refine ⟨⟨c.toLower, lower (rest.takeWhile isTagNamePart), ?_, ?_⟩, ?_, ?_, ?_⟩
  · rw [Tag.read, hname]
    rfl
  · exact (apply_toLower (by decide) c).trans hc
  · intro d hd
    obtain ⟨e, he, rfl⟩ := mem_lower hd
    rw [isTagNamePart_toLower]
    exact List.all_eq_true.mp List.all_takeWhile e he
  · exact lower_lower _
  · exact Attribute.legal_of_readAll _

/-! ## Attributes read back -/

/-- Text that ends a bare attribute before it: nothing, or a space and no equals sign behind it. -/
def EndsAttribute (behind : Text) : Prop :=
  behind = [] ∨ ∃ c rest, behind = ' ' :: c :: rest ∧ isBlank c = false ∧ c ≠ '='

namespace Attribute

theorem readAssignment?_of_ends {behind : Text} (h : EndsAttribute behind) :
    readAssignment? behind = none := by
  rcases h with rfl | ⟨c, rest, rfl, hc, hne⟩
  · rfl
  · have : trimStart (' ' :: c :: rest) = c :: rest := by
      rw [trimStart, List.dropWhile_cons_of_pos (by decide),
        List.dropWhile_cons_of_neg (by simp [hc])]
    rw [readAssignment?, this]
    split
    · rename_i heq
      cases heq
      exact absurd rfl hne
    · rfl

theorem takeWhile_of_ends {behind : Text} (h : EndsAttribute behind) :
    behind.takeWhile isAttributeNamePart = [] := by
  rcases h with rfl | ⟨c, rest, rfl, -, -⟩
  · rfl
  · exact List.takeWhile_cons_of_neg (by decide)

theorem readAll_space_name {name behind : Text} (hne : name ≠ [])
    (hpart : ∀ c ∈ name, isAttributeNamePart c = true)
    (hstop : behind.takeWhile isAttributeNamePart = []) :
    readAll (' ' :: (name ++ behind)) =
      match readAssignment? behind with
      | some (value, rest) => ⟨lower name, some value⟩ :: readAll rest
      | none => ⟨lower name, none⟩ :: readAll behind := by
  obtain ⟨c, tail, rfl⟩ := List.exists_cons_of_ne_nil hne
  have hc := hpart c List.mem_cons_self
  have htake : (tail ++ behind).takeWhile isAttributeNamePart = tail := by
    rw [List.takeWhile_append_of_pos (fun d hd => hpart d (List.mem_cons_of_mem _ hd)), hstop,
      List.append_nil]
  rw [readAll, if_neg (by decide), List.cons_append, readAll, if_pos hc]
  simp only [htake, List.drop_left]
  split <;> simp_all

theorem readAssignment?_quoted {q : Char} (hq : q = '"' ∨ q = '\'') {value : Text}
    (hv : q ∉ value) (behind : Text) :
    readAssignment? ('=' :: q :: (value ++ q :: behind)) = some (value, behind) := by
  have hsplit : split? [q] (value ++ q :: behind) = some (value, behind) := by
    rw [split?_eq_some_iff]
    exact ⟨by simp, endsAt_singleton.mpr hv⟩
  rcases hq with rfl | rfl
  · exact hsplit
  · exact hsplit

end Attribute

theorem readAll_writeAttribute {attr : Attribute} (h : attr.Legal) {behind : Text}
    (ends : EndsAttribute behind) :
    Attribute.readAll (Tag.writeAttribute attr ++ behind) = attr :: Attribute.readAll behind := by
  obtain ⟨name, value⟩ := attr
  obtain ⟨hne, hpart, hlow, hquot⟩ := h
  have equals : ∀ rest, ('=' :: rest : Text).takeWhile isAttributeNamePart = [] :=
    fun rest => List.takeWhile_cons_of_neg (by decide)
  cases value with
  | none =>
    have hread := Attribute.readAll_space_name hne hpart (Attribute.takeWhile_of_ends ends)
    rw [Attribute.readAssignment?_of_ends ends, hlow] at hread
    exact hread
  | some value =>
    have quoted : ∀ q : Char, q = '"' ∨ q = '\'' → q ∉ value →
        Attribute.readAll (' ' :: (name ++ '=' :: q :: (value ++ q :: behind))) =
          ⟨name, some value⟩ :: Attribute.readAll behind := by
      intro q hq hv
      rw [Attribute.readAll_space_name hne hpart (equals _), Attribute.readAssignment?_quoted hq hv,
        hlow]
    unfold Tag.writeAttribute
    by_cases hin : '"' ∈ value
    · have := quoted '\'' (Or.inr rfl) (hquot value rfl hin)
      simpa [hin] using this
    · have := quoted '"' (Or.inl rfl) hin
      simpa [hin] using this

/-! ## The end of a tag -/

/-- Text that a tag's end cannot stand in: all its quotes are closed. -/
def ClosesQuotes (text : Text) : Prop :=
  ∀ behind, tagInside? none (text ++ behind) = (tagInside? none behind).map (text ++ ·)

theorem closesQuotes_nil : ClosesQuotes [] := by
  intro behind
  simp

theorem tagInside?_of_closesQuotes {inside : Text} (h : ClosesQuotes inside) (behind : Text) :
    tagInside? none (inside ++ '>' :: behind) = some inside := by
  rw [h]
  simp [tagInside?]

theorem closesQuotes_append {a b : Text} (ha : ClosesQuotes a) (hb : ClosesQuotes b) :
    ClosesQuotes (a ++ b) := by
  intro behind
  rw [List.append_assoc, ha, hb, Option.map_map]
  simp [Function.comp_def]

theorem closesQuotes_of_plain {text : Text} (h : ∀ c ∈ text, c ≠ '"' ∧ c ≠ '\'' ∧ c ≠ '>') :
    ClosesQuotes text := by
  induction text with
  | nil => exact closesQuotes_nil
  | cons c text ih =>
    intro behind
    obtain ⟨hd, hs, hgt⟩ := h c List.mem_cons_self
    rw [List.cons_append, tagInside?]
    simp only [if_neg hgt, hd, hs, or_self, if_false]
    rw [ih (fun d hd => h d (List.mem_cons_of_mem _ hd)) behind, Option.map_map]
    rfl

theorem tagInside?_in_quotes {q : Char} {value : Text} (hv : q ∉ value) (behind : Text) :
    tagInside? (some q) (value ++ q :: behind) =
      (tagInside? none behind).map (value ++ q :: ·) := by
  induction value with
  | nil => simp [tagInside?]
  | cons c value ih =>
    have hc : c ≠ q := fun h => hv (by rw [h]; exact List.mem_cons_self)
    rw [List.cons_append, tagInside?]
    simp only [if_neg hc]
    rw [ih (fun h => hv (List.mem_cons_of_mem _ h)), Option.map_map]
    rfl

theorem closesQuotes_quoted {q : Char} (hq : q = '"' ∨ q = '\'') {value : Text} (hv : q ∉ value) :
    ClosesQuotes (q :: (value ++ [q])) := by
  intro behind
  have hgt : q ≠ '>' := by rcases hq with rfl | rfl <;> decide
  rw [List.cons_append, List.append_assoc, tagInside?]
  simp only [if_neg hgt, if_pos hq]
  rw [List.singleton_append, tagInside?_in_quotes hv, Option.map_map]
  simp [Function.comp_def]

theorem closesQuotes_writeAttribute {attr : Attribute} (h : attr.Legal) :
    ClosesQuotes (Tag.writeAttribute attr) := by
  obtain ⟨name, value⟩ := attr
  obtain ⟨-, hpart, -, hquot⟩ := h
  have hname : ClosesQuotes (' ' :: name) := by
    apply closesQuotes_of_plain
    intro c hc
    rcases List.mem_cons.mp hc with rfl | hc
    · decide
    · obtain ⟨-, hd, hs, hgt, -, -⟩ := ne_of_isAttributeNamePart (hpart c hc)
      exact ⟨hd, hs, hgt⟩
  have hequals : ClosesQuotes ['='] := closesQuotes_of_plain (by simp)
  have quoted : ∀ {q : Char} {v : Text}, q = '"' ∨ q = '\'' → q ∉ v →
      ClosesQuotes (' ' :: name ++ (['='] ++ q :: (v ++ [q]))) := fun hq hv =>
    closesQuotes_append hname (closesQuotes_append hequals (closesQuotes_quoted hq hv))
  cases value with
  | none => exact hname
  | some value =>
    unfold Tag.writeAttribute
    by_cases hin : '"' ∈ value
    · have := quoted (Or.inr rfl) (hquot value rfl hin)
      simpa [hin] using this
    · have := quoted (Or.inl rfl) hin
      simpa [hin] using this

/-! ## Whole tags -/

/-- The tag without the attributes named `omitted`. -/
def Tag.without (tag : Tag) (omitted : Text) : Tag :=
  { tag with attributes := tag.attributes.filter fun attr => attr.name ≠ omitted }

@[simp] theorem Tag.name_without (tag : Tag) (omitted : Text) :
    (tag.without omitted).name = tag.name := rfl

@[simp] theorem Tag.isEmpty_without (tag : Tag) (omitted : Text) :
    (tag.without omitted).isEmpty = tag.isEmpty := rfl

/-- What is written of a start tag between its angle brackets. -/
def Tag.inside (tag : Tag) : Text :=
  tag.name ++ (tag.attributes.flatMap Tag.writeAttribute ++ if tag.selfClosing then [' ', '/'] else [])

theorem Tag.Legal.without {tag : Tag} (h : tag.Legal) (omitted : Text) :
    (tag.without omitted).Legal :=
  ⟨h.head, h.part, h.lowered, fun attr hattr => h.attributes attr (List.mem_filter.mp hattr).1⟩

theorem Tag.write_eq_inside (tag : Tag) (omitted : Text) :
    tag.write omitted = '<' :: ((tag.without omitted).inside ++ ['>']) := by
  unfold Tag.write Tag.inside Tag.without
  cases tag.selfClosing <;> simp

theorem exists_writeAttribute_concat {attr : Attribute} (h : attr.Legal) :
    ∃ text c, Tag.writeAttribute attr = text ++ [c] ∧ isBlank c = false ∧ c ≠ '/' := by
  obtain ⟨name, value⟩ := attr
  obtain ⟨hne, hpart, -, -⟩ := h
  cases value with
  | none =>
    refine ⟨' ' :: name.dropLast, name.getLast hne, ?_, ?_⟩
    · rw [List.cons_append, List.dropLast_concat_getLast]
      rfl
    · obtain ⟨hb, -, -, -, hs, -⟩ := ne_of_isAttributeNamePart (hpart _ (List.getLast_mem hne))
      exact ⟨hb, hs⟩
  | some value =>
    unfold Tag.writeAttribute
    by_cases hin : '"' ∈ value
    · exact ⟨' ' :: (name ++ ['=', '\''] ++ value), '\'', by simp [hin], by decide, by decide⟩
    · exact ⟨' ' :: (name ++ ['=', '"'] ++ value), '"', by simp [hin], by decide, by decide⟩

theorem endsAttribute_attributes {attrs : List Attribute} (h : ∀ attr ∈ attrs, attr.Legal)
    (selfClosing : Bool) :
    EndsAttribute (attrs.flatMap Tag.writeAttribute ++ if selfClosing then [' ', '/'] else []) := by
  cases attrs with
  | nil =>
    cases selfClosing with
    | true => exact Or.inr ⟨'/', [], rfl, by decide, by decide⟩
    | false => exact Or.inl rfl
  | cons attr attrs =>
    obtain ⟨hne, hpart, -, -⟩ := h attr List.mem_cons_self
    obtain ⟨c, name, hname⟩ := List.exists_cons_of_ne_nil hne
    obtain ⟨hb, -, -, -, -, heq⟩ := ne_of_isAttributeNamePart (hpart c (by simp [hname]))
    right
    have : ∃ rest, Tag.writeAttribute attr = ' ' :: c :: rest := by
      unfold Tag.writeAttribute
      rw [hname]
      split
      · exact ⟨name, rfl⟩
      · split
        · exact ⟨_, rfl⟩
        · exact ⟨_, rfl⟩
    obtain ⟨rest, hrest⟩ := this
    rw [List.flatMap_cons, hrest]
    exact ⟨c, _, rfl, hb, heq⟩

theorem readAll_attributes {attrs : List Attribute} (h : ∀ attr ∈ attrs, attr.Legal)
    (selfClosing : Bool) :
    Attribute.readAll
      (attrs.flatMap Tag.writeAttribute ++ if selfClosing then [' ', '/'] else []) = attrs := by
  induction attrs with
  | nil => cases selfClosing <;> simp [Attribute.readAll, isAttributeNamePart, isBlank, blankRanges]
  | cons attr attrs ih =>
    have hrest := fun a ha => h a (List.mem_cons_of_mem _ ha)
    rw [List.flatMap_cons, List.append_assoc,
      readAll_writeAttribute (h attr List.mem_cons_self) (endsAttribute_attributes hrest selfClosing),
      ih hrest]

theorem getLast?_attributes_ne {attrs : List Attribute} (h : ∀ attr ∈ attrs, attr.Legal) :
    (trimEnd (attrs.flatMap Tag.writeAttribute)).getLast? ≠ some '/' := by
  rcases attrs.eq_nil_or_concat with rfl | ⟨before, attr, rfl⟩
  · simp [trimEnd]
  · obtain ⟨text, c, hw, hb, hne⟩ := exists_writeAttribute_concat (h attr (by simp))
    rw [List.concat_eq_append, List.flatMap_append, List.flatMap_singleton, hw,
      ← List.append_assoc, getLast?_trimEnd_append hb]
    simpa using hne

theorem Tag.read_inside {tag : Tag} (h : tag.Legal) : Tag.read tag.inside = tag := by
  obtain ⟨name, attrs, selfClosing⟩ := tag
  obtain ⟨-, hpart, hlow, hattrs⟩ := h
  have hstop : ∀ {behind : Text}, EndsAttribute behind → behind.takeWhile isTagNamePart = [] := by
    rintro behind (rfl | ⟨c, rest, rfl, -, -⟩)
    · rfl
    · exact List.takeWhile_cons_of_neg (by decide)
  have htake : (Tag.inside ⟨name, attrs, selfClosing⟩).takeWhile isTagNamePart = name := by
    rw [Tag.inside, List.takeWhile_append_of_pos hpart,
      hstop (endsAttribute_attributes hattrs selfClosing), List.append_nil]
  unfold Tag.read
  simp only [htake]
  rw [Tag.inside, List.drop_left]
  simp only [hlow, readAll_attributes hattrs]
  congr 1
  cases selfClosing with
  | true =>
    have : attrs.flatMap Tag.writeAttribute ++ [' ', '/'] =
        attrs.flatMap Tag.writeAttribute ++ [' '] ++ ['/'] := by simp
    simp only [if_true]
    rw [this, getLast?_trimEnd_append (by decide)]
    rfl
  | false =>
    simp only [Bool.false_eq_true, if_false, List.append_nil]
    exact decide_eq_false (getLast?_attributes_ne hattrs)

theorem closesQuotes_inside {tag : Tag} (h : tag.Legal) : ClosesQuotes tag.inside := by
  have hname : ClosesQuotes tag.name := by
    apply closesQuotes_of_plain
    intro c hc
    exact ne_of_isTagNamePart (h.part c hc)
  have hattrs : ∀ attrs : List Attribute, (∀ attr ∈ attrs, attr.Legal) →
      ClosesQuotes (attrs.flatMap Tag.writeAttribute) := by
    intro attrs
    induction attrs with
    | nil => intro _; exact closesQuotes_nil
    | cons attr attrs ih =>
      intro hl
      rw [List.flatMap_cons]
      exact closesQuotes_append (closesQuotes_writeAttribute (hl attr List.mem_cons_self))
        (ih fun a ha => hl a (List.mem_cons_of_mem _ ha))
  refine closesQuotes_append hname (closesQuotes_append (hattrs _ h.attributes) ?_)
  cases tag.selfClosing with
  | true => exact closesQuotes_of_plain (by simp)
  | false => exact closesQuotes_nil

end Phrasebook.Markup
