import Mathlib.Data.List.Lex
import Mathlib.Data.List.Sort
import Phrasebook.Path
import Phrasebook.Proofs.Text.Search

/-!
# Joined paths

Joining a relative path to another adds its components, whatever the two look like. Of the components
only the root and a dot can stand at the front alone; all that follow are names and ways up.
-/

namespace Phrasebook.Path

/-! ## Names -/

/-- What an entry of a directory can be called. -/
def isName (segment : Text) : Bool :=
  !isFiller segment && segment ≠ ".." && !segment.contains '/' && !segment.contains '\x00' &&
    nameFits segment

/-- The segments that say something. -/
def names (path : Text) : List Text := (segments path).filter fun segment => !isFiller segment

/-- Whether a path leads upwards anywhere. -/
def climbs (path : Text) : Bool := (segments path).contains ".."

/-- The components of a path where another one stands before it. -/
def behind (path : Text) : List Component := (segments path).filterMap (component? false)

/-- Whether a dot is the first component. -/
def isDotted (path : Text) : Bool := (components path).head? = some .current

/-- The component that stands at the front of a path alone. -/
def lead (path : Text) : List Component :=
  if isAbsolute path then [.root] else if isDotted path then [.current] else []

section

variable {path base other segment : Text}

theorem component?_cases (segment : Text) :
    (isFiller segment = true ∧ component? false segment = none) ∨
    (segment = ".." ∧ component? false segment = some .parent) ∨
    (isFiller segment = false ∧ segment ≠ ".." ∧
      component? false segment = some (.name segment)) := by
  by_cases hnil : segment = []
  · left
    rw [hnil]
    decide
  by_cases hdot : segment = "."
  · left
    rw [hdot]
    decide
  by_cases hup : segment = ".."
  · right
    left
    rw [hup]
    decide
  · right
    right
    unfold isFiller component?
    rw [if_neg hnil, if_neg hdot, if_neg hup]
    exact ⟨by rw [decide_eq_false hnil, decide_eq_false hdot]; rfl, hup, rfl⟩

theorem isName_iff : isName segment = true ↔ isFiller segment = false ∧ segment ≠ ".." ∧
    '/' ∉ segment ∧ '\x00' ∉ segment ∧ nameFits segment = true := by
  unfold isName
  rw [Bool.and_eq_true, Bool.and_eq_true, Bool.and_eq_true, Bool.and_eq_true, decide_eq_true_eq]
  simp only [Bool.not_eq_true', List.contains_eq_mem, decide_eq_false_iff_not]
  tauto

theorem component?_of_isName (h : isName segment = true) :
    component? false segment = some (.name segment) := by
  obtain ⟨hfiller, hup, -⟩ := isName_iff.mp h
  rcases component?_cases segment with ⟨hyes, -⟩ | ⟨hyes, -⟩ | ⟨-, -, heq⟩
  · rw [hyes] at hfiller
    cases hfiller
  · exact absurd hyes hup
  · exact heq

theorem isFiller_cases (h : isFiller segment = true) : segment = [] ∨ segment = "." := by
  simpa [isFiller] using h

theorem not_mem_of_isFiller {c : Char} (h : isFiller segment = true) (hc : c ≠ '.') : c ∉ segment := by
  rcases Bool.or_eq_true_iff.mp h with h | h
  · simp [of_decide_eq_true h]
  · simpa [of_decide_eq_true h] using hc

theorem component?_of_isFiller (h : isFiller segment = true) : component? false segment = none := by
  rcases component?_cases segment with ⟨-, heq⟩ | ⟨rfl, -⟩ | ⟨hnot, -⟩
  · exact heq
  · exact absurd h (by decide)
  · rw [h] at hnot
    cases hnot

theorem climbs_eq_false : climbs path = false ↔ ∀ segment ∈ segments path, segment ≠ ".." := by
  unfold climbs
  rw [List.contains_eq_mem, decide_eq_false_iff_not]
  constructor
  · rintro h segment hin rfl
    exact h hin
  · intro h hin
    exact h _ hin rfl

/-- Segments without a way up among them say names. -/
theorem filterMap_component?_of_ne_up {all : List Text} (h : ∀ segment ∈ all, segment ≠ "..") :
    all.filterMap (component? false) = (all.filter fun segment => !isFiller segment).map .name := by
  induction all with
  | nil => rfl
  | cons segment all ih =>
    obtain ⟨hup, h⟩ := List.forall_mem_cons.mp h
    rcases component?_cases segment with ⟨hfiller, heq⟩ | ⟨hyes, -⟩ | ⟨hfiller, -, heq⟩
    · rw [List.filterMap_cons_none heq, ih h, List.filter_cons_of_neg (by simp [hfiller])]
    · exact absurd hyes hup
    · rw [List.filterMap_cons_some heq, ih h, List.filter_cons_of_pos (by simp [hfiller])]
      rfl

theorem behind_of_not_climbs (h : climbs path = false) : behind path = (names path).map .name :=
  filterMap_component?_of_ne_up (climbs_eq_false.mp h)

theorem current_not_mem_behind : Component.current ∉ behind path := by
  unfold behind
  rw [List.mem_filterMap]
  rintro ⟨segment, -, h⟩
  rcases component?_cases segment with ⟨-, heq⟩ | ⟨-, heq⟩ | ⟨-, -, heq⟩ <;> simp [heq] at h

theorem root_not_mem_behind : Component.root ∉ behind path := by
  unfold behind
  rw [List.mem_filterMap]
  rintro ⟨segment, -, h⟩
  rcases component?_cases segment with ⟨-, heq⟩ | ⟨-, heq⟩ | ⟨-, -, heq⟩ <;> simp [heq] at h

/-! ## The front of a path -/

theorem exists_segments (path : Text) : ∃ leading others, segments path = leading :: others :=
  List.exists_cons_of_ne_nil (Text.pieces_ne_nil '/' path)

theorem components_of_segments {leading : Text} {others : List Text} (hne : path ≠ [])
    (h : segments path = leading :: others) :
    components path = (component? true leading).toList ++ others.filterMap (component? false) := by
  unfold components
  split
  · exact absurd rfl hne
  · rename_i hnil
    rw [h] at hnil
    cases hnil
  · rename_i heq
    rw [h] at heq
    cases heq
    rfl

theorem leading_ne_nil (hne : path ≠ []) (h : isAbsolute path = false) {leading : Text}
    {others : List Text} (hs : segments path = leading :: others) : leading ≠ [] := by
  cases path with
  | nil => exact absurd rfl hne
  | cons c path =>
    have hc : c ≠ '/' := by simpa [isAbsolute] using h
    obtain ⟨piece, others', hp⟩ := exists_segments path
    rw [segments, Text.pieces_cons_of_ne hc hp] at hs
    cases hs
    simp

theorem leading_of_isAbsolute (h : isAbsolute path = true) {leading : Text} {others : List Text}
    (hs : segments path = leading :: others) : leading = [] := by
  obtain ⟨rest, rfl⟩ := List.head?_eq_some_iff.mp (of_decide_eq_true h)
  have hcut : segments ('/' :: rest) = [] :: segments rest := Text.pieces_cons_self '/' rest
  rw [hs] at hcut
  exact (List.cons.inj hcut).1

/-- A path is its lead, if there is one, and what another path could stand before. -/
theorem components_eq (hne : path ≠ []) : components path = lead path ++ behind path := by
  obtain ⟨leading, others, hs⟩ := exists_segments path
  have hcomponents := components_of_segments hne hs
  unfold lead isDotted behind
  rw [hs]
  by_cases habsolute : isAbsolute path = true
  · have htrue : component? true [] = some .root := by decide
    have hfalse : component? false [] = none := by decide
    rw [leading_of_isAbsolute habsolute hs, htrue] at hcomponents
    rw [if_pos habsolute, leading_of_isAbsolute habsolute hs, List.filterMap_cons_none hfalse, hcomponents]
    rfl
  have hleading := leading_ne_nil hne (by simpa using habsolute) hs
  rw [if_neg habsolute]
  by_cases hdot : leading = "."
  · have htrue : component? true leading = some .current := by rw [hdot]; decide
    have hfalse : component? false leading = none := by rw [hdot]; decide
    rw [hcomponents, htrue, List.filterMap_cons_none hfalse]
    rfl
  · have hsame : component? true leading = component? false leading := by
      unfold component?
      rw [if_neg hleading, if_neg hdot, if_neg hleading, if_neg hdot]
    have hbehind : components path = behind path := by
      rw [hcomponents, hsame, behind, hs, List.filterMap_cons]
      cases component? false leading <;> rfl
    have hnot : (behind path).head? ≠ some .current := by
      intro hhead
      exact current_not_mem_behind (List.mem_of_mem_head? hhead)
    rw [hbehind, if_neg (by simpa using hnot), behind, hs]
    rfl

theorem components_ne_nil (hne : path ≠ []) : components path ≠ [] := by
  obtain ⟨leading, others, hs⟩ := exists_segments path
  have hleading : component? true leading ≠ none := by
    simp only [component?, if_true]
    split_ifs <;> simp
  obtain ⟨c, hc⟩ := Option.ne_none_iff_exists'.mp hleading
  rw [components_of_segments hne hs, hc]
  exact List.cons_ne_nil _ _

theorem behind_ne_nil (hne : path ≠ []) (h : isAbsolute path = false) (hdotted : isDotted path = false) :
    behind path ≠ [] := by
  have hcomponents := components_eq hne
  rw [lead, if_neg (by simp [h]), if_neg (by simp [hdotted]), List.nil_append] at hcomponents
  rw [← hcomponents]
  exact components_ne_nil hne

/-! ## Joining -/

theorem exists_segments_join (hbase : base ≠ []) (hother : isAbsolute other = false) :
    ∃ front, front ≠ [] ∧ segments (join base other) = front ++ segments other ∧
      (segments base = front ∨ segments base = front ++ [[]]) := by
  unfold join
  rw [if_neg (by simp [hother])]
  by_cases hslash : base.getLast? = some '/'
  · obtain ⟨front, rfl⟩ := List.getLast?_eq_some_iff.mp hslash
    have hcut : segments (front ++ ['/']) = segments front ++ [[]] := Text.pieces_append '/' front []
    refine ⟨segments front, Text.pieces_ne_nil _ _, ?_, Or.inr hcut⟩
    rw [if_pos (Or.inr hslash), List.append_assoc]
    exact Text.pieces_append '/' front other
  · refine ⟨segments base, Text.pieces_ne_nil _ _, ?_, Or.inl rfl⟩
    rw [if_neg (by simp [hbase, hslash]), List.append_assoc]
    exact Text.pieces_append '/' base other

theorem ne_nil_of_isAbsolute (h : isAbsolute path = true) : path ≠ [] := by
  rintro rfl
  cases h

theorem join_ne_nil (hbase : base ≠ []) (other : Text) : join base other ≠ [] := by
  unfold join
  split
  · rename_i habsolute
    exact ne_nil_of_isAbsolute habsolute
  · split <;> simp [hbase]

theorem exists_join_eq (base : Text) (hother : isAbsolute other = false) :
    ∃ slash : Text, (slash = [] ∨ slash = "/") ∧ join base other = base ++ slash ++ other := by
  unfold join
  rw [if_neg (by simp [hother])]
  split
  · exact ⟨[], Or.inl rfl, by simp⟩
  · exact ⟨"/", Or.inr rfl, rfl⟩

theorem isAbsolute_join (hbase : base ≠ []) (hother : isAbsolute other = false) :
    isAbsolute (join base other) = isAbsolute base := by
  obtain ⟨slash, -, heq⟩ := exists_join_eq base hother
  obtain ⟨c, rest, rfl⟩ := List.exists_cons_of_ne_nil hbase
  rw [heq]
  rfl

theorem not_mem_join {c : Char} (hc : c ≠ '/') (hother : isAbsolute other = false)
    (h : c ∉ base) (h' : c ∉ other) : c ∉ join base other := by
  obtain ⟨slash, hslash, heq⟩ := exists_join_eq base hother
  rw [heq]
  rcases hslash with rfl | rfl <;> simp [h, h', hc]

theorem mem_join_of_mem {c : Char} (hother : isAbsolute other = false) (h : c ∈ other) :
    c ∈ join base other := by
  obtain ⟨slash, -, heq⟩ := exists_join_eq base hother
  rw [heq]
  exact List.mem_append_right _ h

/-- An empty segment at the end says nothing. -/
theorem components_of_front {leading : Text} {others : List Text} (hne : path ≠ [])
    (h : segments path = leading :: others ∨ segments path = leading :: others ++ [[]]) :
    components path = (component? true leading).toList ++ others.filterMap (component? false) := by
  rcases h with h | h
  · exact components_of_segments hne h
  · have hnone : component? false [] = none := by decide
    rw [List.cons_append] at h
    rw [components_of_segments hne h, List.filterMap_append, List.filterMap_cons_none hnone,
      List.filterMap_nil, List.append_nil]

theorem components_join (hbase : base ≠ []) (hother : isAbsolute other = false) :
    components (join base other) = components base ++ behind other := by
  obtain ⟨front, hfront, hjoin, hsegments⟩ := exists_segments_join hbase hother
  obtain ⟨leading, others, rfl⟩ := List.exists_cons_of_ne_nil hfront
  rw [List.cons_append] at hjoin
  rw [components_of_front hbase hsegments, components_of_segments (join_ne_nil hbase other) hjoin,
    List.filterMap_append, behind, ← List.append_assoc]

theorem behind_join (hbase : base ≠ []) (hother : isAbsolute other = false) :
    behind (join base other) = behind base ++ behind other := by
  obtain ⟨front, -, hjoin, hsegments⟩ := exists_segments_join hbase hother
  unfold behind
  rw [hjoin, List.filterMap_append]
  rcases hsegments with hsegments | hsegments
  · rw [hsegments]
  · have hnone : component? false [] = none := by decide
    rw [hsegments, List.filterMap_append, List.filterMap_cons_none hnone, List.filterMap_nil,
      List.append_nil]

theorem join_of_relative (base : Text) (hother : isAbsolute other = false) : join base other =
    if base = [] ∨ base.getLast? = some '/' then base ++ other else base ++ "/" ++ other := by
  rw [join, if_neg (by simp [hother])]

theorem nil_join (hother : isAbsolute other = false) : join [] other = other := by
  rw [join_of_relative [] hother, if_pos (Or.inl rfl), List.nil_append]

/-- Behind a slash, or behind nothing, a path is joined as it is alone. -/
theorem join_append {front : Text} (hslash : front = [] ∨ front.getLast? = some '/') (path : Text)
    (hother : isAbsolute other = false) : join (front ++ path) other = front ++ join path other := by
  rw [join_of_relative _ hother, join_of_relative _ hother]
  by_cases hpath : path = []
  · rw [hpath, List.append_nil, if_pos hslash, if_pos (Or.inl rfl), List.nil_append]
  · have hlast : (front ++ path).getLast? = path.getLast? := by
      rw [List.getLast?_append, List.getLast?_eq_some_getLast hpath, Option.some_or]
    have hsome : front ++ path ≠ [] := by simp [hpath]
    simp only [hlast, hpath, hsome, false_or]
    split_ifs <;> simp only [List.append_assoc]

theorem join_nil_cases (base : Text) : join base [] = [] ∨ (join base []).getLast? = some '/' := by
  rw [join_of_relative base (by decide)]
  split_ifs with h
  · rwa [List.append_nil]
  · exact Or.inr (by simp)

theorem join_eq_append (base : Text) (hother : isAbsolute other = false) :
    join base other = join base [] ++ other := by
  rw [join_of_relative base hother, join_of_relative base (by decide)]
  split_ifs <;> simp

theorem foldl_join_append {front : Text} {segments : List Text}
    (hslash : front = [] ∨ front.getLast? = some '/')
    (hrelative : ∀ segment ∈ segments, isAbsolute segment = false) (path : Text) :
    segments.foldl join (front ++ path) = front ++ segments.foldl join path := by
  induction segments generalizing path with
  | nil => rfl
  | cons segment segments ih =>
    rw [List.forall_mem_cons] at hrelative
    rw [List.foldl_cons, List.foldl_cons, join_append hslash path hrelative.1, ih hrelative.2]

theorem byteLength_join_le (base other : Text) :
    Text.byteLength (join base other) ≤ Text.byteLength base + 1 + Text.byteLength other := by
  unfold join
  split_ifs
  · omega
  · rw [Text.byteLength_append]
    omega
  · rw [Text.byteLength_append, Text.byteLength_append]
    exact le_rfl

/-! ## The current directory -/

theorem segments_of_not_mem (h : '/' ∉ segment) : segments segment = [segment] :=
  Text.pieces_of_not_mem h

theorem isAbsolute_of_not_mem (h : '/' ∉ segment) : isAbsolute segment = false := by
  simp only [isAbsolute, decide_eq_false_iff_not]
  exact fun hhead => h (List.mem_of_mem_head? hhead)

theorem isAbsolute_of_isCurrent (h : isCurrent path = true) : isAbsolute path = false := by
  simp only [isCurrent, Bool.and_eq_true, decide_eq_true_eq] at h
  simp [isAbsolute, h.1]

theorem behind_of_isCurrent (h : isCurrent path = true) : behind path = [] := by
  have hrelative := isAbsolute_of_isCurrent h
  simp only [isCurrent, Bool.and_eq_true, decide_eq_true_eq] at h
  have hne : path ≠ [] := by
    rintro rfl
    simp at h
  have hcomponents := components_eq hne
  have hdotted : isDotted path = true := by simp [isDotted, h.2]
  rw [h.2, lead, hrelative, hdotted] at hcomponents
  simpa using hcomponents

theorem isCurrent_join (hbase : base ≠ []) (h : isCurrent base = false) (hother : isAbsolute other = false) :
    isCurrent (join base other) = false := by
  obtain ⟨slash, -, heq⟩ := exists_join_eq base hother
  obtain ⟨c, rest, rfl⟩ := List.exists_cons_of_ne_nil hbase
  by_contra hcurrent
  have hdot : c = '.' ∧ components (join (c :: rest) other) = [.current] := by
    simpa [isCurrent, heq] using hcurrent
  have hone := hdot.2
  rw [components_join hbase hother] at hone
  -- Of a single component the base has all, since it has one.
  have hbase' : components (c :: rest) = [.current] := by
    rcases List.append_eq_singleton_iff.mp hone with ⟨hnil, -⟩ | ⟨hall, -⟩
    · exact absurd hnil (components_ne_nil hbase)
    · exact hall
  rw [isCurrent, hbase', hdot.1] at h
  simp at h

theorem isCurrent_of_behind_ne_nil (h : behind path ≠ []) : isCurrent path = false := by
  by_contra hcurrent
  exact h (behind_of_isCurrent (by simpa using hcurrent))

theorem isFiller_of_filterMap_eq_nil {all : List Text} (h : all.filterMap (component? false) = []) :
    ∀ segment ∈ all, isFiller segment = true := by
  intro segment hin
  have hnone := List.filterMap_eq_nil_iff.mp h segment hin
  rcases component?_cases segment with ⟨hfiller, -⟩ | ⟨-, heq⟩ | ⟨-, -, heq⟩
  · exact hfiller
  · rw [heq] at hnone
    cases hnone
  · rw [heq] at hnone
    cases hnone

theorem isFiller_of_behind_eq_nil (h : behind path = []) :
    ∀ segment ∈ segments path, isFiller segment = true :=
  isFiller_of_filterMap_eq_nil h

theorem isCurrent_of_isDotted_segment (hslash : '/' ∉ segment) (h : isDotted segment = true) :
    isCurrent segment = true := by
  have hne : segment ≠ [] := by
    rintro rfl
    simp [isDotted, components] at h
  have hcomponents := components_of_segments hne (segments_of_not_mem hslash)
  by_cases hdot : segment = "."
  · rw [hdot]
    decide
  · simp only [isDotted, hcomponents, component?, if_neg hne, if_neg hdot] at h
    split at h <;> simp at h

theorem isDotted_join (hbase : base ≠ []) (hother : isAbsolute other = false) :
    isDotted (join base other) = isDotted base := by
  rw [isDotted, isDotted, components_join hbase hother,
    List.head?_append_of_ne_nil _ (components_ne_nil hbase)]

theorem isDotted_of_isAbsolute (h : isAbsolute path = true) : isDotted path = false := by
  rw [isDotted, components_eq (ne_nil_of_isAbsolute h), lead, if_pos h]
  rfl

theorem isAbsolute_of_isDotted (h : isDotted path = true) : isAbsolute path = false := by
  by_contra habsolute
  rw [isDotted_of_isAbsolute (by simpa using habsolute)] at h
  cases h

/-- With a dot in front of the base, a path that is joined to it begins with a dot or at the top. -/
theorem exists_lead_join (hne : base ≠ []) (hbase : isDotted base = true) (other : Text) :
    ∃ first, (first = .root ∨ first = .current) ∧ lead (join base other) = [first] := by
  cases hother : isAbsolute other with
  | true =>
    have hjoin : join base other = other := by rw [join, if_pos hother]
    exact ⟨.root, Or.inl rfl, by rw [hjoin, lead, if_pos hother]⟩
  | false =>
    refine ⟨.current, Or.inr rfl, ?_⟩
    rw [lead, isAbsolute_join hne hother, isDotted_join hne hother, isAbsolute_of_isDotted hbase, hbase]
    rfl

/-! ## Paths of names -/

theorem segments_ofSegments {texts : List Text} (hne : texts ≠ [])
    (h : ∀ text ∈ texts, isName text = true) : segments (ofSegments texts) = texts :=
  Text.pieces_join hne fun text hin => (isName_iff.mp (h text hin)).2.2.1

theorem isAbsolute_ofSegments {texts : List Text} (h : ∀ text ∈ texts, isName text = true) :
    isAbsolute (ofSegments texts) = false := by
  cases texts with
  | nil => rfl
  | cons first others =>
    obtain ⟨hfiller, -, hslash, -⟩ := isName_iff.mp (h first List.mem_cons_self)
    cases first with
    | nil => simp [isFiller] at hfiller
    | cons c first =>
      have hc : c ≠ '/' := fun hc => hslash (by simp [hc])
      cases others <;> simp [isAbsolute, ofSegments, Text.join, hc]

theorem not_mem_ofSegments {c : Char} {texts : List Text} (hc : c ≠ '/') (h : ∀ text ∈ texts, c ∉ text) :
    c ∉ ofSegments texts := by
  induction texts with
  | nil => exact List.not_mem_nil
  | cons first others ih =>
    obtain ⟨hfirst, hothers⟩ := List.forall_mem_cons.mp h
    cases others with
    | nil => simpa [ofSegments, Text.join] using hfirst
    | cons second others =>
      have hlater : c ∉ Text.join "/" (second :: others) := ih hothers
      rw [ofSegments, Text.join_cons_cons, List.mem_append, List.mem_append]
      rintro (hin | hin | hin)
      · exact hfirst hin
      · exact hc (List.mem_singleton.mp hin)
      · exact hlater hin

theorem filterMap_component?_names {texts : List Text} (h : ∀ text ∈ texts, isName text = true) :
    texts.filterMap (component? false) = texts.map .name := by
  induction texts with
  | nil => rfl
  | cons first others ih =>
    obtain ⟨hfirst, hothers⟩ := List.forall_mem_cons.mp h
    rw [List.filterMap_cons_some (component?_of_isName hfirst), ih hothers]
    rfl

theorem behind_ofSegments {texts : List Text} (hne : texts ≠ [])
    (h : ∀ text ∈ texts, isName text = true) :
    behind (ofSegments texts) = texts.map .name := by
  rw [behind, segments_ofSegments hne h, filterMap_component?_names h]

/-- The path of what lies at some names below `path`. -/
def below (path : Text) (names : List Text) : Text :=
  if names = [] then path else join path (ofSegments names)

theorem below_of_ne_nil {texts : List Text} (hne : texts ≠ []) (path : Text) :
    below path texts = join path (ofSegments texts) := if_neg hne

theorem below_spec {texts : List Text} (hne : path ≠ []) (h : ∀ text ∈ texts, isName text = true) :
    below path texts ≠ [] ∧ isAbsolute (below path texts) = isAbsolute path ∧
      isDotted (below path texts) = isDotted path ∧
      behind (below path texts) = behind path ++ texts.map .name := by
  by_cases hnone : texts = []
  · rw [below, if_pos hnone, hnone]
    exact ⟨hne, rfl, rfl, (List.append_nil _).symm⟩
  · have hrelative := isAbsolute_ofSegments h
    rw [below, if_neg hnone, behind_join hne hrelative, behind_ofSegments hnone h]
    exact ⟨join_ne_nil hne _, isAbsolute_join hne hrelative, isDotted_join hne hrelative, rfl⟩

theorem below_append {front : Text} {texts : List Text}
    (hslash : front = [] ∨ front.getLast? = some '/') (h : ∀ text ∈ texts, isName text = true) (path : Text) :
    below (front ++ path) texts = front ++ below path texts := by
  unfold below
  split
  · rfl
  · exact join_append hslash path (isAbsolute_ofSegments h)

theorem byteLength_ofSegments {texts : List Text} (hne : texts ≠ []) :
    Text.byteLength (ofSegments texts) + 1 = (texts.map fun text => Text.byteLength text + 1).sum := by
  induction texts with
  | nil => exact absurd rfl hne
  | cons first others ih =>
    cases others with
    | nil => simp [ofSegments, Text.join]
    | cons second others =>
      have hslash : Text.byteLength "/" = 1 := by decide
      have hothers := ih (by simp)
      unfold ofSegments at hothers ⊢
      rw [Text.join_cons_cons, Text.byteLength_append, Text.byteLength_append, hslash, List.map_cons,
        List.sum_cons, ← hothers]
      omega

end

/-! ## Order -/

theorem Component.key_injective : Function.Injective Component.key := by
  intro a b h
  have hchar : Function.Injective Char.toNat := fun c d hcd => Char.toNat_inj.mp hcd
  cases a <;> cases b <;> simp [Component.key, hchar.list_map.eq_iff] at h ⊢
  exact h

theorem components_eq_of_key_eq {a b : Text} (h : key a = key b) : components a = components b :=
  Component.key_injective.list_map h

theorem le_iff {a b : Text} : le a b = true ↔ ¬ key b < key a := by
  simp [le]

theorem pairwise_mergeSort_le (paths : List Text) :
    (paths.mergeSort le).Pairwise fun a b => le a b = true := by
  refine List.pairwise_mergeSort ?_ ?_ paths
  · intro a b c hab hbc
    rw [le_iff] at *
    exact List.le_trans hab hbc
  · intro a b
    rw [Bool.or_eq_true, le_iff, le_iff]
    exact List.le_total (key a) (key b)

theorem dropRepeated_cons (path : Text) (others : List Text) :
    ((∀ next, (dropRepeated others).head? = some next → components path ≠ components next) ∧
      dropRepeated (path :: others) = path :: dropRepeated others) ∨
    ∃ next later, dropRepeated others = next :: later ∧ components path = components next ∧
      dropRepeated (path :: others) = path :: later := by
  rw [dropRepeated]
  split
  · rename_i heq
    rw [heq]
    exact Or.inl ⟨by simp, rfl⟩
  · rename_i next later heq
    rw [heq]
    split
    · rename_i hsame
      exact Or.inr ⟨next, later, rfl, hsame, rfl⟩
    · rename_i hother
      exact Or.inl ⟨by simpa using hother, rfl⟩

theorem mem_of_mem_dropRepeated {paths : List Text} : ∀ path ∈ dropRepeated paths, path ∈ paths := by
  induction paths with
  | nil => simp [dropRepeated]
  | cons first others ih =>
    intro path hin
    rcases dropRepeated_cons first others with ⟨-, heq⟩ | ⟨next, later, hothers, -, heq⟩
    · rw [heq, List.mem_cons] at hin
      exact List.mem_cons.mpr (hin.imp_right (ih path))
    · rw [heq, List.mem_cons] at hin
      rw [hothers] at ih
      exact List.mem_cons.mpr (hin.imp_right fun hlater => ih path (List.mem_cons_of_mem _ hlater))

theorem exists_mem_dropRepeated {paths : List Text} :
    ∀ path ∈ paths, ∃ kept ∈ dropRepeated paths, components kept = components path := by
  induction paths with
  | nil => simp
  | cons first others ih =>
    rcases dropRepeated_cons first others with ⟨-, heq⟩ | ⟨next, later, hothers, hsame, heq⟩
    · rw [heq, List.forall_mem_cons]
      refine ⟨⟨first, List.mem_cons_self, rfl⟩, fun path hin => ?_⟩
      obtain ⟨kept, hkept, hc⟩ := ih path hin
      exact ⟨kept, List.mem_cons_of_mem _ hkept, hc⟩
    · rw [heq, List.forall_mem_cons]
      refine ⟨⟨first, List.mem_cons_self, rfl⟩, fun path hin => ?_⟩
      obtain ⟨kept, hkept, hc⟩ := ih path hin
      rw [hothers, List.mem_cons] at hkept
      rcases hkept with rfl | hkept
      · exact ⟨first, List.mem_cons_self, hsame.trans hc⟩
      · exact ⟨kept, List.mem_cons_of_mem _ hkept, hc⟩

/-- Of paths in order, those with the same components stand together, and one of them stays. -/
theorem pairwise_dropRepeated {paths : List Text}
    (h : paths.Pairwise fun a b => le a b = true) :
    (dropRepeated paths).Pairwise fun a b => key a < key b := by
  induction paths with
  | nil => simp [dropRepeated]
  | cons first others ih =>
    obtain ⟨hfirst, hothers⟩ := List.pairwise_cons.mp h
    have hlater := ih hothers
    rcases dropRepeated_cons first others with ⟨hother, heq⟩ | ⟨next, later, hnext, hsame, heq⟩
    · rw [heq, List.pairwise_cons]
      refine ⟨?_, hlater⟩
      have hmem : ∀ path ∈ dropRepeated others, path ∈ others := mem_of_mem_dropRepeated
      generalize dropRepeated others = kept at hother hlater hmem
      cases kept with
      | nil => simp
      | cons next later =>
        have hle : ¬ key next < key first :=
          le_iff.mp (hfirst next (hmem next List.mem_cons_self))
        have hne : key first ≠ key next := fun hkey =>
          hother next rfl (components_eq_of_key_eq hkey)
        have hlt : key first < key next := lt_of_le_of_ne (not_lt.mp hle) hne
        rw [List.forall_mem_cons]
        exact ⟨hlt, fun path hin => List.lt_trans hlt ((List.pairwise_cons.mp hlater).1 path hin)⟩
    · rw [hnext, List.pairwise_cons] at hlater
      rw [heq, List.pairwise_cons, key, hsame]
      exact hlater

theorem mem_of_mem_sort {paths : List Text} {path : Text} (h : path ∈ sort paths) : path ∈ paths :=
  List.mem_mergeSort.mp (mem_of_mem_dropRepeated path h)

theorem exists_mem_sort {paths : List Text} {path : Text} (h : path ∈ paths) :
    ∃ kept ∈ sort paths, components kept = components path :=
  exists_mem_dropRepeated path (List.mem_mergeSort.mpr h)

theorem pairwise_sort (paths : List Text) : (sort paths).Pairwise fun a b => key a < key b :=
  pairwise_dropRepeated (pairwise_mergeSort_le paths)

/-- No two of the paths have the same components. -/
theorem eq_of_mem_sort {paths : List Text} {a b : Text} (ha : a ∈ sort paths) (hb : b ∈ sort paths)
    (h : components a = components b) : a = b := by
  have hne : (sort paths).Pairwise fun a b => key a ≠ key b := (pairwise_sort paths).imp ne_of_lt
  exact List.inj_on_of_nodup_map (List.pairwise_map.mpr hne) ha hb (by rw [key, key, h])

theorem mem_sort_iff {paths : List Text} {path : Text}
    (distinct : ∀ a ∈ paths, ∀ b ∈ paths, components a = components b → a = b) :
    path ∈ sort paths ↔ path ∈ paths := by
  refine ⟨mem_of_mem_sort, fun h => ?_⟩
  obtain ⟨kept, hkept, hsame⟩ := exists_mem_sort h
  rwa [← distinct kept (mem_of_mem_sort hkept) path h hsame]

/-- Which paths there are decides how they are sorted, if no two have the same components. -/
theorem sort_congr {paths others : List Text} (hmem : ∀ path, path ∈ paths ↔ path ∈ others)
    (distinct : ∀ a ∈ paths, ∀ b ∈ paths, components a = components b → a = b) :
    sort paths = sort others := by
  have hnodup (paths : List Text) : (sort paths).Nodup :=
    (pairwise_sort paths).imp fun hlt heq => ne_of_lt hlt (congrArg key heq)
  have distinct' : ∀ a ∈ others, ∀ b ∈ others, components a = components b → a = b :=
    fun a ha b hb => distinct a ((hmem a).mpr ha) b ((hmem b).mpr hb)
  have hperm : (sort paths).Perm (sort others) :=
    (List.perm_ext_iff_of_nodup (hnodup paths) (hnodup others)).mpr fun path => by
      rw [mem_sort_iff distinct, mem_sort_iff distinct', hmem]
  exact hperm.eq_of_pairwise (fun a b _ _ hab hba => absurd (List.lt_trans hab hba) (List.lt_irrefl _))
    (pairwise_sort paths) (pairwise_sort others)

/-- Paths that are in order stay as they are. -/
theorem sort_of_pairwise {paths : List Text} (h : paths.Pairwise fun a b => key a < key b) :
    sort paths = paths := by
  have hkept : dropRepeated paths = paths := by
    induction paths with
    | nil => rfl
    | cons first others ih =>
      obtain ⟨hfirst, hothers⟩ := List.pairwise_cons.mp h
      rcases dropRepeated_cons first others with ⟨-, heq⟩ | ⟨next, later, hnext, hsame, -⟩
      · rw [heq, ih hothers]
      · rw [ih hothers] at hnext
        have hlt := hfirst next (hnext ▸ List.mem_cons_self)
        rw [key, key, hsame] at hlt
        exact absurd hlt (List.lt_irrefl _)
  have hle : paths.Pairwise fun a b => le a b = true := h.imp fun hlt => le_iff.mpr (List.lt_asymm hlt)
  rw [sort, List.mergeSort_of_pairwise hle, hkept]

theorem sort_eq_of_perm {paths others : List Text} (hperm : paths.Perm others)
    (h : others.Pairwise fun a b => key a < key b) : sort paths = others := by
  have hne : (others.map key).Nodup := List.pairwise_map.mpr (h.imp ne_of_lt)
  refine (sort_congr (fun path => hperm.mem_iff) fun a ha b hb hsame => ?_).trans (sort_of_pairwise h)
  exact List.inj_on_of_nodup_map hne (hperm.mem_iff.mp ha) (hperm.mem_iff.mp hb) (by rw [key, key, hsame])

theorem mem_map_components_sort {paths : List Text} {all : List Component} :
    all ∈ (sort paths).map components ↔ all ∈ paths.map components := by
  constructor
  · intro h
    obtain ⟨path, hpath, rfl⟩ := List.mem_map.mp h
    exact List.mem_map_of_mem (mem_of_mem_sort hpath)
  · intro h
    obtain ⟨path, hpath, rfl⟩ := List.mem_map.mp h
    obtain ⟨kept, hkept, hsame⟩ := exists_mem_sort hpath
    exact hsame ▸ List.mem_map_of_mem hkept

/-- Compared by their components, the paths that there are decide how they are sorted. -/
theorem map_components_sort_congr {paths others : List Text}
    (h : ∀ all, all ∈ paths.map components ↔ all ∈ others.map components) :
    (sort paths).map components = (sort others).map components := by
  have hsorted (paths : List Text) : ((sort paths).map components).Pairwise fun a b =>
      a.map Component.key < b.map Component.key :=
    List.pairwise_map.mpr (pairwise_sort paths)
  have hnodup (paths : List Text) : ((sort paths).map components).Nodup :=
    (hsorted paths).imp fun hlt heq => ne_of_lt hlt (congrArg (List.map Component.key) heq)
  have hperm : ((sort paths).map components).Perm ((sort others).map components) :=
    (List.perm_ext_iff_of_nodup (hnodup paths) (hnodup others)).mpr fun all => by
      rw [mem_map_components_sort, mem_map_components_sort, h]
  exact hperm.eq_of_pairwise (fun a b _ _ hab hba => absurd (List.lt_trans hab hba) (List.lt_irrefl _))
    (hsorted paths) (hsorted others)

end Phrasebook.Path
