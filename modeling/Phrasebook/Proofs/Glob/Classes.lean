import Mathlib.Data.List.TakeWhile
import Phrasebook.Proofs.Glob.Components
import Phrasebook.Proofs.Path.Parents

/-!
# Classes and slashes

A class ends at the first closing bracket behind its first member, and what it names is what stands in
it. A slash that it names is a slash of the text all the same, and cuts it. That is the only way in
which a pattern that can be read as a whole cannot be read component by component.
-/

namespace Phrasebook.Glob

/-! ## The text of a class -/

/-- The text between the brackets of a class. -/
inductive IsClass : Text → Token → Prop where
  | within {first : Char} {others : Text} (unsigned : first ≠ '!') (closed : ']' ∉ others) :
    IsClass (first :: others) (.within (specifiers (first :: others)))
  | outside {first : Char} {others : Text} (closed : ']' ∉ others) :
    IsClass ('!' :: first :: others) (.outside (specifiers (first :: others)))

/-- Whether a member of a class is the character, or a range from it or to it. -/
def Specifier.names (c : Char) : Specifier → Bool
  | .single d => d = c
  | .range low high => low = c || high = c

def Token.names (c : Char) : Token → Bool
  | .within specifiers | .outside specifiers => specifiers.any (Specifier.names c)
  | _ => false

/-- Whether no class of a pattern names a slash. -/
def isCuttable (pattern : Pattern) : Bool := pattern.all fun token => !token.names '/'

section

variable {body before rest text : Text} {token : Token} {pattern done : Pattern} {position width : Nat}
  {previous : Option Char}

theorem takeWhile_ne_append {others : Text} (closed : ']' ∉ others) (behind : Text) :
    (others ++ ']' :: behind).takeWhile (· ≠ ']') = others := by
  rw [List.takeWhile_append_of_pos fun c hc => decide_eq_true (ne_of_mem_of_not_mem hc closed),
    List.takeWhile_cons_of_neg (by simp), List.append_nil]

theorem exists_of_closed {members : Text}
    (h : ¬ members.length < ((members.drop 1).takeWhile (· ≠ ']')).length + 2) :
    ∃ first others behind, members = first :: others ++ ']' :: behind ∧ ']' ∉ others := by
  cases members with
  | nil => simp at h
  | cons first more =>
    rw [List.drop_one, List.tail_cons, List.length_cons] at h
    by_cases hin : ']' ∈ more
    · obtain ⟨others, behind, rfl, closed⟩ := List.eq_append_cons_of_mem hin
      exact ⟨first, others, behind, rfl, closed⟩
    · have hall : more.takeWhile (· ≠ ']') = more :=
        List.takeWhile_eq_self_iff.mpr fun c hc => decide_eq_true (ne_of_mem_of_not_mem hc hin)
      rw [hall] at h
      omega

theorem IsClass.class?_eq (h : IsClass body token) (behind : Text) :
    class? (body ++ ']' :: behind) = some (token, body.length + 1) := by
  have taken (first : Char) (others : Text) :
      (first :: (others ++ ']' :: behind)).take (others.length + 1) = first :: others := by
    simp
  cases h with
  | within unsigned closed =>
    unfold class?
    simp only [List.cons_append, List.head?_cons, Option.some.injEq, unsigned, if_false, List.drop_one,
      List.tail_cons, takeWhile_ne_append closed, taken]
    rw [if_neg (by simp)]
    rfl
  | outside closed =>
    unfold class?
    simp only [List.cons_append, List.head?_cons, if_true, List.drop_one, List.tail_cons,
      takeWhile_ne_append closed, taken]
    rw [if_neg (by simp)]
    rfl

/-- A class is read exactly as far as its closing bracket. -/
theorem class?_eq_some_iff : class? rest = some (token, width) ↔
    ∃ body behind, rest = body ++ ']' :: behind ∧ width = body.length + 1 ∧ IsClass body token := by
  constructor
  · intro h
    -- It is enough that some class stands here: what is read of it is known then.
    suffices ∃ body behind token, rest = body ++ ']' :: behind ∧ IsClass body token by
      obtain ⟨body, behind, token', rfl, hclass⟩ := this
      rw [hclass.class?_eq] at h
      cases h
      exact ⟨body, behind, rfl, rfl, hclass⟩
    unfold class? at h
    dsimp only at h
    by_cases hsign : rest.head? = some '!'
    · obtain ⟨more, rfl⟩ := List.head?_eq_some_iff.mp hsign
      rw [if_pos hsign, List.drop_one, List.tail_cons] at h
      obtain ⟨first, others, behind, rfl, closed⟩ := exists_of_closed fun hshort => by
        rw [if_pos hshort] at h
        cases h
      exact ⟨'!' :: first :: others, behind, _, rfl, .outside closed⟩
    · rw [if_neg hsign] at h
      obtain ⟨first, others, behind, rfl, closed⟩ := exists_of_closed fun hshort => by
        rw [if_pos hshort] at h
        cases h
      refine ⟨first :: others, behind, _, rfl, .within ?_ closed⟩
      rintro rfl
      exact hsign rfl
  · rintro ⟨body, behind, rfl, rfl, hclass⟩
    exact hclass.class?_eq behind

/-- No bracket closes a class before its end. -/
theorem IsClass.class?_eq_none (h : IsClass body token) (hbefore : before <+: body) :
    class? before = none := by
  rw [Option.eq_none_iff_forall_ne_some]
  rintro ⟨token', width⟩ hsome
  obtain ⟨body', behind', rfl, -, h'⟩ := class?_eq_some_iff.mp hsome
  obtain ⟨left, hleft⟩ := hbefore
  have inside {first first' : Char} {others others' : Text}
      (heq : first' :: others' ++ ']' :: behind' ++ left = first :: others) : ']' ∈ others := by
    rw [List.cons_append, List.cons_append, List.cons.injEq] at heq
    rw [← heq.2]
    simp
  cases h with
  | within unsigned closed =>
    cases h' with
    | within => exact closed (inside hleft)
    | outside => exact unsigned (List.cons.inj hleft).1.symm
  | outside closed =>
    cases h' with
    | within unsigned => exact unsigned (List.cons.inj hleft).1
    | outside => exact closed (inside (List.cons.inj hleft).2)

/-! ## What a class names -/

theorem any_names_specifiers {c : Char} (hne : c ≠ '-') (text : Text) :
    (specifiers text).any (Specifier.names c) = true ↔ c ∈ text := by
  fun_induction specifiers text with
  | case1 low high rest ih =>
    simp [ih, Specifier.names, hne, or_assoc, eq_comm (a := c)]
  | case2 d rest _ ih => simp [ih, Specifier.names, eq_comm (a := c)]
  | case3 => simp

theorem IsClass.names_iff (h : IsClass body token) : token.names '/' = true ↔ '/' ∈ body := by
  cases h with
  | within => exact any_names_specifiers (by decide) _
  | outside =>
    rw [List.mem_cons, or_iff_right (by decide)]
    exact any_names_specifiers (by decide) _

theorem isCuttable_cons :
    isCuttable (token :: pattern) = true ↔ token.names '/' = false ∧ isCuttable pattern = true := by
  simp [isCuttable]

theorem isCuttable_reverse : isCuttable pattern.reverse = isCuttable pattern := by
  simp [isCuttable]

theorem isCuttable_addComponents (h : isCuttable done = true) : isCuttable (addComponents done) = true := by
  unfold addComponents
  split
  · exact h
  · exact isCuttable_cons.mpr ⟨rfl, h⟩

/-! ## Cutting -/

/-- Whether each of the texts is a pattern. -/
def allPatterns (texts : List Text) : Bool := texts.all fun text => (compile text).isOk

theorem exists_piece_of_append (front : Text) {first : Text} {others : List Text} (hslash : '/' ∉ front)
    (hpieces : Text.pieces '/' (front ++ rest) = first :: others) :
    ∃ inner, first = front ++ inner ∧ Text.pieces '/' rest = inner :: others := by
  induction front generalizing first with
  | nil => exact ⟨first, rfl, hpieces⟩
  | cons c front ih =>
    rw [List.mem_cons, not_or] at hslash
    obtain ⟨piece, later, hlater⟩ := List.exists_cons_of_ne_nil (Text.pieces_ne_nil '/' (front ++ rest))
    rw [List.cons_append, Text.pieces_cons_of_ne (Ne.symm hslash.1) hlater] at hpieces
    cases hpieces
    obtain ⟨inner, rfl, hinner⟩ := ih hslash.2 hlater
    exact ⟨inner, rfl, hinner⟩

theorem prefix_of_pieces {first : Text} {others : List Text}
    (hpieces : Text.pieces '/' text = first :: others) : first <+: text := by
  induction text generalizing first others with
  | nil =>
    cases hpieces
    exact List.prefix_rfl
  | cons c text ih =>
    by_cases hslash : c = '/'
    · rw [hslash, Text.pieces_cons_self] at hpieces
      cases hpieces
      exact List.nil_prefix
    · obtain ⟨inner, rfl, hinner⟩ :=
        exists_piece_of_append [c] (by simpa using Ne.symm hslash) hpieces
      exact (List.cons_prefix_cons).mpr ⟨rfl, ih hinner⟩

theorem exists_prefix_of_mem (hslash : '/' ∈ body) (behind : Text) :
    ∃ before others, before <+: body ∧ Text.pieces '/' (body ++ behind) = before :: others := by
  obtain ⟨before, after, rfl, hbefore⟩ := List.eq_append_cons_of_mem hslash
  refine ⟨before, Text.pieces '/' (after ++ behind), List.prefix_append _ _, ?_⟩
  rw [List.append_assoc, List.cons_append, Text.pieces_append, Text.pieces_of_not_mem hbefore]
  rfl

theorem not_isCuttable_of_names (h : compileFrom position previous (token :: done) text = .ok pattern)
    (hnames : token.names '/' = true) : isCuttable pattern = false := by
  rw [Bool.eq_false_iff]
  intro hcuttable
  rw [isCuttable, List.all_eq_true] at hcuttable
  have hfree := hcuttable token (mem_of_compileFrom h List.mem_cons_self)
  rw [hnames] at hfree
  cases hfree

/-- Where a class is cut, what is before the cut is no pattern. -/
theorem isOk_compileFrom_of_cut (hclass : IsClass body token) (hbefore : before <+: body) :
    (compileFrom position previous done ('[' :: before)).isOk = false := by
  rw [compileFrom, hclass.class?_eq_none hbefore]
  rfl

theorem compileFrom_class (hclass : IsClass body token) :
    compileFrom position previous done ('[' :: (body ++ ']' :: rest)) =
      compileFrom (position + 1 + (body.length + 1)) (some ']') (token :: done) rest := by
  rw [compileFrom, hclass.class?_eq]
  dsimp only
  rw [List.drop_length_add_append]
  rfl

/-- A pattern whose classes name no slash is one in each of its pieces, and only such a one is. -/
theorem isCuttable_iff_allPatterns {first : Text} {others : List Text}
    (h : compileFrom position previous done text = .ok pattern) (hdone : isCuttable done = true)
    (hpieces : Text.pieces '/' text = first :: others) :
    isCuttable pattern = true ↔
      (compileFrom position previous done first).isOk = true ∧ allPatterns others = true := by
  -- The first piece goes on from where the text stands, and each of the others begins anew.
  fun_induction compileFrom position previous done text generalizing first others with
  | case1 =>
    cases hpieces
    cases h
    rw [isCuttable_reverse, hdone]
    simp [compileFrom, allPatterns, Except.isOk, Except.toBool]
  | case2 position _ done rest ih =>
    obtain ⟨inner, rfl, hinner⟩ := exists_piece_of_append ['?'] (by simp) hpieces
    rw [ih h (isCuttable_cons.mpr ⟨rfl, hdone⟩) hinner, List.singleton_append, compileFrom]
  | case5 position previous done hstart =>
    cases h
    cases hpieces
    rw [isCuttable_reverse, isCuttable_addComponents hdone, compileFrom, if_neg hstart, if_pos rfl]
    · simp [allPatterns, Except.isOk, Except.toBool]
    · simp
  | case6 position previous done behind hnext hstart hbehind hslash ih =>
    obtain ⟨rest, rfl⟩ := List.head?_eq_some_iff.mp hslash
    obtain ⟨inner, later, hinner⟩ := List.exists_cons_of_ne_nil (Text.pieces_ne_nil '/' rest)
    rw [show '*' :: '*' :: '/' :: rest = ['*', '*'] ++ '/' :: rest from rfl, Text.pieces_append, hinner]
      at hpieces
    cases hpieces
    have hstars : (compileFrom position previous done ['*', '*']).isOk = true := by
      rw [compileFrom, if_neg hstart, if_pos rfl]
      · rfl
      · simp
    have hfresh : (compileFrom (position + 3) (some '/') (addComponents done) inner).isOk =
        (compile inner).isOk := isOk_compileFrom_congr (by simp)
    rw [ih h (isCuttable_addComponents hdone) hinner, hfresh, hstars]
    simp [allPatterns]
  | case8 position previous done rest hthree htwo ih =>
    obtain ⟨inner, rfl, hinner⟩ := exists_piece_of_append ['*'] (by simp) hpieces
    have hsingle (more : Text) : inner ≠ '*' :: more := by
      rintro rfl
      obtain ⟨behind, rfl⟩ := prefix_of_pieces hinner
      exact htwo _ rfl
    rw [ih h (isCuttable_cons.mpr ⟨rfl, hdone⟩) hinner, List.singleton_append, compileFrom]
    · exact fun more => hsingle _
    · exact hsingle
  | case9 position previous done rest token width hclass ih =>
    obtain ⟨body, behind, rfl, rfl, isClass⟩ := class?_eq_some_iff.mp hclass
    rw [List.drop_length_add_append] at h ih
    by_cases hslash : '/' ∈ body
    · obtain ⟨before, later, hbefore, hcut⟩ := exists_prefix_of_mem hslash (']' :: behind)
      rw [Text.pieces_cons_of_ne (by decide) hcut] at hpieces
      cases hpieces
      rw [not_isCuttable_of_names h (isClass.names_iff.mpr hslash), isOk_compileFrom_of_cut isClass hbefore]
      simp
    · obtain ⟨inner, rfl, hinner⟩ := exists_piece_of_append ('[' :: (body ++ [']']))
        (by simpa using hslash) (by simpa using hpieces)
      have hfree : token.names '/' = false := by
        rw [Bool.eq_false_iff]
        exact mt isClass.names_iff.mp hslash
      rw [ih h (isCuttable_cons.mpr ⟨hfree, hdone⟩) hinner, List.cons_append, List.append_assoc,
        List.singleton_append, compileFrom_class isClass]
  | case11 position previous done c rest hany _ _ hstar hbracket ih =>
    by_cases hslash : c = '/'
    · subst hslash
      obtain ⟨inner, later, hinner⟩ := List.exists_cons_of_ne_nil (Text.pieces_ne_nil '/' rest)
      rw [Text.pieces_cons_self, hinner] at hpieces
      cases hpieces
      have hfresh : (compileFrom (position + 1) (some '/') (.char '/' :: done) inner).isOk =
          (compile inner).isOk := isOk_compileFrom_congr (by simp)
      rw [ih h (isCuttable_cons.mpr ⟨rfl, hdone⟩) hinner, hfresh]
      simp [compileFrom, allPatterns, Except.isOk, Except.toBool]
    · have hplain : isPlain [c] = true := by simpa [isPlain] using ⟨⟨hany, hstar⟩, hbracket⟩
      obtain ⟨inner, rfl, hinner⟩ :=
        exists_piece_of_append [c] (by simpa using Ne.symm hslash) hpieces
      rw [ih h (isCuttable_cons.mpr ⟨rfl, hdone⟩) hinner, List.singleton_append,
        compileFrom_cons_plain hplain]
  | _ => cases h

/-- Behind a pattern and a slash a text is read as it is at the beginning. -/
theorem exists_compileFrom_append_slash {front : Text}
    (h : (compileFrom position previous done front).isOk = true) (behind : Text) :
    ∃ position' done', compileFrom position previous done (front ++ '/' :: behind) =
      compileFrom position' (some '/') done' behind := by
  fun_induction compileFrom position previous done front with
  | case1 position previous done => exact ⟨_, _, compileFrom_cons_plain (by decide)⟩
  | case2 position _ done rest ih =>
    rw [List.cons_append, compileFrom]
    exact ih h
  | case5 position previous done hstart =>
    refine ⟨position + 3, addComponents done, ?_⟩
    rw [List.cons_append, List.singleton_append, compileFrom, if_neg hstart, if_neg (by simp),
      if_pos (by simp)]
    · rfl
    · simp
  | case6 position previous done rest hnext hstart hbehind hslash ih =>
    obtain ⟨more, rfl⟩ := List.head?_eq_some_iff.mp hslash
    rw [List.cons_append, List.cons_append, compileFrom, if_neg hstart, if_neg (by simp),
      if_pos (by simp)]
    · exact ih h
    · simp
  | case8 position previous done rest hthree htwo ih =>
    have hsingle (more : Text) : rest ++ '/' :: behind ≠ '*' :: more := by
      cases rest with
      | nil => simp
      | cons c rest =>
        rintro heq
        exact htwo rest (by rw [(List.cons.inj heq).1])
    rw [List.cons_append, compileFrom]
    · exact ih h
    · exact fun more => hsingle _
    · exact hsingle
  | case9 position previous done rest token width hclass ih =>
    obtain ⟨body, after, rfl, rfl, isClass⟩ := class?_eq_some_iff.mp hclass
    rw [List.drop_length_add_append] at h ih
    rw [List.cons_append, List.append_assoc, List.cons_append, compileFrom_class isClass]
    exact ih h
  | case11 position previous done c rest hany _ _ hstar hbracket ih =>
    have hplain : isPlain [c] = true := by simpa [isPlain] using ⟨⟨hany, hstar⟩, hbracket⟩
    rw [List.cons_append, compileFrom_cons_plain hplain]
    exact ih h
  | _ => cases h

/-- A text that is a pattern in each of its segments is one as a whole. -/
theorem isOk_compile_of_allPatterns (h : allPatterns (Path.segments text) = true) :
    (compile text).isOk = true := by
  rw [← Path.ofSegments_segments text]
  have hne : Path.segments text ≠ [] := Text.pieces_ne_nil '/' text
  generalize Path.segments text = all at h hne
  induction all with
  | nil => exact absurd rfl hne
  | cons first others ih =>
    rw [allPatterns, List.all_cons, Bool.and_eq_true] at h
    cases others with
    | nil => simpa [Path.ofSegments, Text.join] using h.1
    | cons second others =>
      obtain ⟨position, done, hslash⟩ :=
        exists_compileFrom_append_slash h.1 (Path.ofSegments (second :: others))
      have hjoin : Path.ofSegments (first :: second :: others) =
          first ++ '/' :: Path.ofSegments (second :: others) := Text.join_cons_cons _ _ _ _
      have hfresh : (compileFrom position (some '/') done (Path.ofSegments (second :: others))).isOk =
          (compile (Path.ofSegments (second :: others))).isOk := isOk_compileFrom_congr (by simp)
      rw [hjoin, compile, hslash, hfresh]
      exact ih h.2 (by simp)

end

/-! ## Components behind a base -/

section

variable {text base : Text} {pattern : Pattern} {workspace : Workspace}

theorem isOk_mapM_compile (texts : List Text) : (texts.mapM compile).isOk = allPatterns texts := by
  induction texts with
  | nil => rfl
  | cons first others ih =>
    rw [List.mapM_cons, allPatterns, List.all_cons, ← allPatterns, ← ih]
    cases compile first with
    | error _ => rfl
    | ok _ => cases others.mapM compile <;> rfl

theorem allPatterns_componentTexts (text : Text) :
    allPatterns (componentTexts text) = allPatterns (Path.segments text) := by
  rcases segments_eq_componentTexts text with heq | heq <;> rw [heq]
  -- The empty component at the end is a pattern.
  simp [allPatterns, compile, compileFrom, Except.isOk, Except.toBool]

/-- Component by component a pattern can be read exactly if no class of it names a slash. -/
theorem isOk_compileComponents (h : compile text = .ok pattern) :
    (compileComponents text).isOk = isCuttable pattern := by
  obtain ⟨first, others, hpieces⟩ := List.exists_cons_of_ne_nil (Text.pieces_ne_nil '/' text)
  have hcomponents : (compileComponents text).isOk = allPatterns (Path.segments text) := by
    rw [← allPatterns_componentTexts, ← isOk_mapM_compile, compileComponents, h]
    rfl
  rw [hcomponents, Path.segments, hpieces, Bool.eq_iff_iff,
    isCuttable_iff_allPatterns h rfl hpieces, ← Bool.and_eq_true]
  rfl

theorem isOk_compileComponents_join (hplain : isPlain base = true) (text : Text) :
    (compileComponents (Path.join base text)).isOk = (compileComponents text).isOk := by
  by_cases habsolute : Path.isAbsolute text = true
  · rw [Path.join, if_pos habsolute]
  by_cases hbase : base = []
  · rw [Path.join, if_neg habsolute, if_pos (Or.inl hbase), hbase, List.nil_append]
  rw [Bool.not_eq_true] at habsolute
  rw [Bool.eq_iff_iff, isOk_iff, isOk_iff]
  simp only [compileComponents_join_iff hplain hbase habsolute]
  constructor
  · rintro ⟨_, inner, hinner, -⟩
    exact ⟨inner, hinner⟩
  · rintro ⟨inner, hinner⟩
    exact ⟨_, inner, hinner, rfl⟩

/-- Whatever stands before it, a text that is no pattern makes none component by component. -/
theorem isOk_compile_of_compileComponents_join
    (h : (compileComponents (Path.join base text)).isOk = true) : (compile text).isOk = true := by
  obtain ⟨patterns, hpatterns⟩ := isOk_iff.mp h
  obtain ⟨hwhole, hcomponents⟩ := compileComponents_eq_ok_iff.mp hpatterns
  by_cases habsolute : Path.isAbsolute text = true
  · rwa [Path.join, if_pos habsolute] at hwhole
  by_cases hbase : base = []
  · rwa [Path.join, if_neg habsolute, if_pos (Or.inl hbase), hbase, List.nil_append] at hwhole
  rw [Bool.not_eq_true] at habsolute
  have hall : allPatterns (componentTexts (Path.join base text)) = true := by
    rw [← isOk_mapM_compile, hcomponents]
    rfl
  rw [componentTexts_join hbase habsolute, allPatterns, List.all_append, Bool.and_eq_true] at hall
  exact isOk_compile_of_allPatterns ((allPatterns_componentTexts text).symm.trans hall.2)

theorem directories_join_eq_error {error : Error} (h : compile text = .error error) :
    ∃ error, directories workspace (Path.join base text) = .error error := by
  cases hcomponents : compileComponents (Path.join base text) with
  | error error => exact ⟨error, by rw [directories, hcomponents]; rfl⟩
  | ok patterns =>
    have hok := isOk_compile_of_compileComponents_join (isOk_iff.mpr ⟨patterns, hcomponents⟩)
    rw [h] at hok
    cases hok

/-- From a plain base a pattern is searched for exactly if no class of it names a slash. -/
theorem isOk_directories_join (hplain : isPlain base = true) (h : compile text = .ok pattern) :
    (directories workspace (Path.join base text)).isOk = isCuttable pattern := by
  rw [← isOk_compileComponents h, ← isOk_compileComponents_join hplain text, directories]
  cases compileComponents (Path.join base text) <;> rfl

end

end Phrasebook.Glob
