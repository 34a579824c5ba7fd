import Mathlib.Control.Monad.Basic
import Mathlib.Data.List.Forall2
import Phrasebook.Proofs.Table.Place

/-!
# Where both kinds of tables agree

A source is a plain table exactly if it is one of Go, and the entries with double quotes on both sides are
phrases in either. What sets the two phrases of such an entry apart is an escape that only one dialect has,
and the comments above the key, which count in Go alone.
-/

namespace Phrasebook

open Text

/-! ## Dialects -/

namespace Escape

/-- Whether the dialect of Go decodes an escape of eight digits in the body of a literal. -/
def holdsLong : Text → Bool
  | [] => false
  | c :: rest =>
    if c = '\\' then
      match read? .go rest with
      | some escape => rest.head? = some 'U' || holdsLong (rest.drop escape.width)
      | none => holdsLong (rest.drop 1)
    else holdsLong rest
  termination_by body => body.length
  decreasing_by all_goals simp only [List.length_drop, List.length_cons]; omega

theorem read?_of_head? {rest : Text} (h : rest.head? = some 'U') : read? .cFamily rest = none := by
  obtain ⟨digits, rfl⟩ := List.head?_eq_some_iff.mp h
  rfl

theorem read?_eq_read? {rest : Text} (h : rest.head? ≠ some 'U') :
    read? .cFamily rest = read? .go rest := by
  match rest with
  | [] => rfl
  | c :: rest =>
    have hc : c ≠ 'U' := fun heq => h (congrArg some heq)
    unfold read?
    split <;> simp_all

/-- The dialects differ in escapes of eight digits alone. -/
theorem decode_eq_decode {body : Text} (h : holdsLong body = false) :
    decode .cFamily body = decode .go body := by
  fun_induction holdsLong body with
  | case1 => rw [decode, decode]
  | case2 rest escape hread ih =>
    simp only [Bool.or_eq_false_iff, decide_eq_false_iff_not] at h
    rw [decode, decode, if_pos rfl, if_pos rfl, read?_eq_read? h.1, hread]
    simp only [ih h.2]
  | case3 rest hread ih =>
    have hplain : read? .cFamily rest = none := by
      by_cases hhead : rest.head? = some 'U'
      · exact read?_of_head? hhead
      · rw [read?_eq_read? hhead, hread]
    rw [decode, decode, if_pos rfl, if_pos rfl, hread, hplain]
    simp only [ih h]
  | case4 c rest hc ih => rw [decode, decode, if_neg hc, if_neg hc, ih h]

end Escape

/-! ## Hints -/

theorem join_concat (separator last : Text) {texts : List Text} (hne : texts ≠ []) :
    join separator (texts ++ [last]) = join separator texts ++ separator ++ last := by
  induction texts with
  | nil => exact absurd rfl hne
  | cons first others ih =>
    cases others with
    | nil => simp [join]
    | cons second others =>
      have := ih (by simp)
      rw [List.cons_append, List.cons_append, join_cons_cons, join_cons_cons, ← List.cons_append, this]
      simp only [List.append_assoc]

/-- The last line of a hint is all of it, or a line break stands before it. -/
theorem Phrase.hintOfLines_concat (above : List Text) (last : Text) :
    hintOfLines (above ++ [last]) = some last ∨
      ∃ before, hintOfLines (above ++ [last]) = some (before ++ "\n" ++ last) := by
  by_cases hne : above = []
  · left
    simp [hne, hintOfLines, join]
  · right
    refine ⟨join "\n" above, ?_⟩
    rw [← join_concat _ _ hne]
    cases above with
    | nil => exact absurd rfl hne
    | cons => rfl

namespace Table

/-! ## Entries -/

/-- Whether the key and the value are both in double quotes. -/
def Entry.isDoubleQuoted (entry : Entry) : Bool :=
  entry.key.lexeme.kind = .quoted .double && entry.value.lexeme.kind = .quoted .double

/-- Whether a phrase of a plain table and one of Go are the same but for comments above the key. -/
structure SamePhrase (plain go : Phrase) : Prop where
  key : plain.key = go.key
  value : plain.value = go.value
  kind : plain.kind = go.kind
  line : plain.line = go.line
  hint : ∀ hint, plain.hint = some hint →
    go.hint = some hint ∨ ∃ above, go.hint = some (above ++ "\n" ++ hint)

theorem Entry.kinds_of_isDoubleQuoted {entry : Entry} (h : entry.isDoubleQuoted = true) :
    entry.key.lexeme.kind = .quoted .double ∧ entry.value.lexeme.kind = .quoted .double := by
  simpa [isDoubleQuoted] using h

theorem Plain.phrase?_eq_none {entry : Entry} (h : entry.isDoubleQuoted = false) :
    phrase? entry = none := by
  unfold phrase?
  exact if_neg fun hkinds => by simp [Entry.isDoubleQuoted, hkinds] at h

/-- An entry in double quotes is a phrase in both kinds of tables. -/
theorem exists_samePhrase (constants : List Constant) {entry : Entry}
    (hquoted : entry.isDoubleQuoted = true)
    (hlong : Escape.holdsLong entry.value.lexeme.body = false) :
    ∃ plain go, Plain.phrase? entry = some plain ∧ GoMap.phrase? constants entry = some go ∧
      SamePhrase plain go := by
  obtain ⟨hkey, hvalue⟩ := entry.kinds_of_isDoubleQuoted hquoted
  have hgokey : GoMap.key? constants entry.key.lexeme = some entry.key.lexeme.body := by
    rw [GoMap.key?, hkey]
  have hgovalue : GoMap.value? entry.value.lexeme =
      some (Escape.decode .go entry.value.lexeme.body) := by
    rw [GoMap.value?, hvalue]
  have hgo : GoMap.phrase? constants entry =
      some (.keyed entry.key.lexeme.body (Escape.decode .go entry.value.lexeme.body)
        (Phrase.hintOfLines (entry.leadingComments ++ entry.trailingComment.toList))
        entry.key.lexeme.line) := by
    rw [GoMap.phrase?, hgokey, hgovalue]
    rfl
  refine ⟨_, _, if_pos ⟨hkey, hvalue⟩, hgo, rfl, Escape.decode_eq_decode hlong, rfl, rfl, ?_⟩
  intro hint hhint
  have htrailing : entry.trailingComment = some hint := hhint
  simp only [Phrase.keyed, htrailing]
  exact Phrase.hintOfLines_concat entry.leadingComments hint

theorem filterMap_filter_of_none {α β : Type} {f : α → Option β} {p : α → Bool} {all : List α}
    (h : ∀ a ∈ all, p a = false → f a = none) : (all.filter p).filterMap f = all.filterMap f := by
  induction all with
  | nil => rfl
  | cons a all ih =>
    rw [List.forall_mem_cons] at h
    rw [List.filterMap_cons, List.filter_cons, ← ih h.2]
    cases hp : p a with
    | true => rfl
    | false => simp [h.1 hp]

theorem forall₂_filterMap {α β γ : Type} {f : α → Option β} {g : α → Option γ} {R : β → γ → Prop}
    {all : List α} (h : ∀ a ∈ all, ∃ b c, f a = some b ∧ g a = some c ∧ R b c) :
    List.Forall₂ R (all.filterMap f) (all.filterMap g) := by
  induction all with
  | nil => exact .nil
  | cons a all ih =>
    rw [List.forall_mem_cons] at h
    obtain ⟨⟨b, c, hb, hc, hR⟩, hothers⟩ := h
    rw [List.filterMap_cons, List.filterMap_cons, hb, hc]
    exact .cons hR (ih hothers)

/-! ## Whole tables -/

/-- Both kinds of tables have the same faults. If no value holds an escape of eight digits that Go decodes,
the phrases of the plain table are, one by one and in their order, those phrases of Go whose key and value
are in double quotes. -/
theorem plain_agrees_with_goMap (source : Text) :
    (∀ fault, Plain.phrases source = .error fault ↔ GoMap.phrases source = .error fault) ∧
      ∀ plain go, Plain.phrases source = .ok plain → GoMap.phrases source = .ok go →
        ∃ lexemes, read source = .ok lexemes ∧
          let phrase? := GoMap.phrase? (Constant.all lexemes)
          let shared := ((entries lexemes).filter Entry.isDoubleQuoted).filterMap phrase?
          go = (entries lexemes).filterMap phrase? ∧ shared.Sublist go ∧
            ((∀ entry ∈ entries lexemes, entry.value.lexeme.kind = .quoted .double →
                Escape.holdsLong entry.value.lexeme.body = false) →
              List.Forall₂ SamePhrase plain shared) := by
  constructor
  · intro fault
    exact map_eq_error.trans map_eq_error.symm
  · intro plain go hplain hgo
    obtain ⟨lexemes, hread, rfl⟩ := map_eq_ok.mp hplain
    obtain ⟨lexemes', hread', rfl⟩ := map_eq_ok.mp hgo
    obtain rfl : lexemes = lexemes' := Except.ok.inj (hread.symm.trans hread')
    refine ⟨lexemes, hread, rfl, List.filter_sublist.filterMap _, ?_⟩
    intro hlong
    rw [← filterMap_filter_of_none fun entry _ => Plain.phrase?_eq_none]
    apply forall₂_filterMap
    intro entry hentry
    obtain ⟨hin, hquoted⟩ := List.mem_filter.mp hentry
    exact exists_samePhrase _ hquoted (hlong entry hin (entry.kinds_of_isDoubleQuoted hquoted).2)

/-- Of three entries, one has double quotes on both sides. -/
theorem plain_agrees_with_goMap_constants :
    ∃ lexemes, read "const c = \"K\"\nm\x7b\n// above\n\"a\": \"\\101\", // behind\nc: \"y\",\n\"b\": `r`\x7d" = .ok lexemes ∧
      let shared := ((entries lexemes).filter Entry.isDoubleQuoted).filterMap
        (GoMap.phrase? (Constant.all lexemes))
      shared.Sublist [.keyed "a" "A" (some "above\nbehind") 4, .keyed "K" "y" none 5,
        .keyed "b" "r" none 6] ∧
      (∀ entry ∈ entries lexemes, entry.value.lexeme.kind = .quoted .double →
        Escape.holdsLong entry.value.lexeme.body = false) ∧
      List.Forall₂ SamePhrase [.keyed "a" "A" (some "behind") 4] shared := by
  have hplain : Plain.phrases "const c = \"K\"\nm\x7b\n// above\n\"a\": \"\\101\", // behind\nc: \"y\",\n\"b\": `r`\x7d" =
      .ok [.keyed "a" "A" (some "behind") 4] := by
    decide +kernel
  have hgo : GoMap.phrases "const c = \"K\"\nm\x7b\n// above\n\"a\": \"\\101\", // behind\nc: \"y\",\n\"b\": `r`\x7d" =
      .ok [.keyed "a" "A" (some "above\nbehind") 4, .keyed "K" "y" none 5, .keyed "b" "r" none 6] := by
    decide +kernel
  have hlong : (read "const c = \"K\"\nm\x7b\n// above\n\"a\": \"\\101\", // behind\nc: \"y\",\n\"b\": `r`\x7d").map
      (fun lexemes => (entries lexemes).any fun entry => Escape.holdsLong entry.value.lexeme.body) =
        .ok false := by
    decide +kernel
  obtain ⟨lexemes, hread, -, hsub, hsame⟩ := (plain_agrees_with_goMap _).2 _ _ hplain hgo
  have hnone : ∀ entry ∈ entries lexemes, entry.value.lexeme.kind = .quoted .double →
      Escape.holdsLong entry.value.lexeme.body = false := by
    rw [hread] at hlong
    intro entry hentry _
    simpa using List.any_eq_false.mp (Except.ok.inj hlong) entry hentry
  exact ⟨lexemes, hread, hsub, hnone, hsame hnone⟩

end Table

end Phrasebook
