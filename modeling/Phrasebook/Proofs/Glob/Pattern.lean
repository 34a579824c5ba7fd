import Mathlib.Data.List.Basic
import Mathlib.Tactic.SplitIfs
import Phrasebook.Glob.Search
import Phrasebook.Proofs.Path

/-!
# Patterns without wildcards

A text stands for itself alone exactly if no star, question mark or opening bracket is in it. A token
that has been read stays in the pattern, so one of these three shows in the pattern of any text around
it.
-/

namespace Phrasebook.Glob

/-- Whether no character of a text has a meaning of its own in patterns. -/
def isPlain (text : Text) : Bool := text.all fun c => c ≠ '?' && c ≠ '*' && c ≠ '['

section

variable {text literal rest : Text} {pattern done : Pattern} {position width : Nat}
  {previous : Option Char} {token : Token}

theorem literal?_eq_some_iff : literal? pattern = some literal ↔ pattern = literal.map .char := by
  unfold literal?
  induction pattern generalizing literal with
  | nil => simp [eq_comm]
  | cons token pattern ih =>
    rw [List.mapM_cons]
    cases token with
    | char c =>
      simp only [pure, bind, Option.bind_some, Option.bind_eq_some_iff, Option.some.injEq]
      constructor
      · rintro ⟨later, hlater, rfl⟩
        rw [ih.mp hlater]
        rfl
      · intro h
        obtain ⟨d, later, rfl, hd, hlater⟩ := List.map_eq_cons_iff.mp h.symm
        cases hd
        exact ⟨later, ih.mpr hlater.symm, rfl⟩
    | _ => cases literal <;> simp

theorem mem_addComponents (h : token ∈ done) : token ∈ addComponents done := by
  unfold addComponents
  split
  · exact h
  · exact List.mem_cons_of_mem _ h

theorem anyComponents_mem_addComponents (done : Pattern) :
    Token.anyComponents ∈ addComponents done := by
  unfold addComponents
  split
  · rename_i h
    exact List.mem_of_mem_head? h.2
  · exact List.mem_cons_self

theorem ne_char_of_class? (h : class? rest = some (token, width)) (c : Char) : token ≠ .char c := by
  unfold class? at h
  dsimp only at h
  split_ifs at h <;> cases h <;> simp

/-- A token that has been read stays. -/
theorem mem_of_compileFrom (h : compileFrom position previous done text = .ok pattern)
    (hin : token ∈ done) : token ∈ pattern := by
  fun_induction compileFrom position previous done text with
  | case1 =>
    cases h
    exact List.mem_reverse.mpr hin
  | case5 =>
    cases h
    exact List.mem_reverse.mpr (mem_addComponents hin)
  | case6 _ _ _ _ _ _ _ _ ih => exact ih h (mem_addComponents hin)
  | case2 _ _ _ _ ih => exact ih h (List.mem_cons_of_mem _ hin)
  | case8 _ _ _ _ _ _ ih => exact ih h (List.mem_cons_of_mem _ hin)
  | case9 _ _ _ _ _ _ _ ih => exact ih h (List.mem_cons_of_mem _ hin)
  | case11 _ _ _ _ _ _ _ _ _ _ ih => exact ih h (List.mem_cons_of_mem _ hin)
  | _ => cases h

/-- What is read as itself is plain. -/
theorem isPlain_of_compileFrom
    (h : compileFrom position previous done text = .ok (literal.map .char)) :
    isPlain text = true ∧ literal.map .char = done.reverse ++ text.map .char := by
  have absent {token : Token} (hne : ∀ c, token ≠ .char c) : token ∉ literal.map Token.char := by
    rw [List.mem_map]
    rintro ⟨c, -, rfl⟩
    exact hne c rfl
  fun_induction compileFrom position previous done text with
  | case1 => exact ⟨rfl, by simpa using (Except.ok.inj h).symm⟩
  | case5 _ _ done =>
    rw [← Except.ok.inj h] at absent
    exact absurd (List.mem_reverse.mpr (anyComponents_mem_addComponents done)) (absent (by simp))
  | case6 _ _ _ _ _ _ _ _ ih =>
    exact absurd (mem_of_compileFrom h (anyComponents_mem_addComponents _)) (absent (by simp))
  | case2 _ _ _ _ ih => exact absurd (mem_of_compileFrom h List.mem_cons_self) (absent (by simp))
  | case8 _ _ _ _ _ _ ih => exact absurd (mem_of_compileFrom h List.mem_cons_self) (absent (by simp))
  | case9 _ _ _ _ _ _ hclass ih =>
    exact absurd (mem_of_compileFrom h List.mem_cons_self) (absent (ne_char_of_class? hclass))
  | case11 position previous done c rest hany _ _ hstar hbracket ih =>
    obtain ⟨hplain, heq⟩ := ih h
    refine ⟨?_, by simpa using heq⟩
    unfold isPlain at hplain ⊢
    rw [List.all_cons, hplain, Bool.and_true]
    simpa using ⟨⟨hany, hstar⟩, hbracket⟩
  | _ => cases h

theorem literal_of_compile (h : compile text = .ok pattern) (hl : literal? pattern = some literal) :
    literal = text ∧ isPlain text = true := by
  rw [literal?_eq_some_iff.mp hl] at h
  obtain ⟨hplain, heq⟩ := isPlain_of_compileFrom h
  have hinj : Function.Injective Token.char := fun c d hcd => Token.char.inj hcd
  exact ⟨hinj.list_map heq, hplain⟩

theorem compileFrom_cons_plain {c : Char} (h : isPlain [c] = true) :
    compileFrom position previous done (c :: rest) =
      compileFrom (position + 1) (some c) (.char c :: done) rest := by
  simp [isPlain] at h
  rw [compileFrom] <;> simp_all

/-- A plain text is read character by character. -/
theorem compileFrom_plain (h : isPlain literal = true) :
    compileFrom position previous done (literal ++ rest) =
      compileFrom (position + literal.length) (literal.getLast?.or previous)
        ((literal.map .char).reverse ++ done) rest := by
  induction literal generalizing position previous done with
  | nil => rfl
  | cons c literal ih =>
    have hboth : isPlain [c] = true ∧ isPlain literal = true := by
      rw [← Bool.and_eq_true, isPlain, isPlain, ← List.all_append]
      exact h
    rw [List.cons_append, compileFrom_cons_plain hboth.1, ih hboth.2]
    simp [List.getLast?_cons, Nat.add_assoc, Nat.add_comm 1]

theorem compile_plain (h : isPlain text = true) : compile text = .ok (text.map .char) := by
  have heq : compileFrom 0 none [] (text ++ []) = _ := compileFrom_plain h
  rw [List.append_nil] at heq
  rw [compile, heq]
  simp [compileFrom]

/-! ## Patterns behind a base -/

/-- Whether a text is a pattern depends on what stands before it only in whether a component begins. -/
theorem isOk_compileFrom_congr {position' : Nat} {previous' : Option Char} {done' : Pattern}
    (h : (0 < position ∧ previous ≠ some '/') ↔ (0 < position' ∧ previous' ≠ some '/')) :
    (compileFrom position previous done text).isOk =
      (compileFrom position' previous' done' text).isOk := by
  -- Both runs take the same branches, and behind the first token both have the same character before them.
  fun_induction compileFrom position previous done text generalizing position' previous' done' with
  | case1 => simp [compileFrom, Except.isOk, Except.toBool]
  | case2 _ _ _ _ ih =>
    rw [compileFrom]
    exact ih (by simp)
  | case3 => simp [compileFrom, Except.isOk, Except.toBool]
  | case4 _ _ _ _ hnext hinside =>
    rw [compileFrom, if_pos (h.mp hinside)]
    · rfl
    · exact hnext
  | case5 _ _ _ hstart =>
    rw [compileFrom, if_neg (mt h.mpr hstart), if_pos rfl]
    · rfl
    · simp
  | case6 _ _ _ _ hnext hstart hbehind hslash ih =>
    rw [compileFrom, if_neg (mt h.mpr hstart), if_neg hbehind, if_pos hslash]
    · exact ih (by simp)
    · exact hnext
  | case7 _ _ _ _ hnext hstart hbehind hslash =>
    rw [compileFrom, if_neg (mt h.mpr hstart), if_neg hbehind, if_neg hslash]
    · rfl
    · exact hnext
  | case8 _ _ _ _ hthree htwo ih =>
    rw [compileFrom]
    · exact ih (by simp)
    · exact hthree
    · exact htwo
  | case9 _ _ _ _ _ _ hclass ih =>
    rw [compileFrom, hclass]
    exact ih (and_congr_left fun _ => by omega)
  | case10 _ _ _ _ hclass =>
    rw [compileFrom, hclass]
    rfl
  | case11 _ _ _ _ _ hany hthree htwo hstar hbracket ih =>
    rw [compileFrom]
    · exact ih (by simp)
    · exact hany
    · exact hthree
    · exact htwo
    · exact hstar
    · exact hbracket
theorem isOk_compile_append {front : Text} (hplain : isPlain front = true)
    (hslash : front = [] ∨ front.getLast? = some '/') :
    (compile (front ++ text)).isOk = (compile text).isOk := by
  rw [compile, compileFrom_plain hplain]
  refine isOk_compileFrom_congr ?_
  rcases hslash with rfl | hslash
  · simp
  · simp [hslash]

/-- Behind a plain base a text is a pattern exactly if it is one alone. -/
theorem isOk_compile_join {base : Text} (hplain : isPlain base = true)
    (hrelative : Path.isAbsolute text = false) :
    (compile (Path.join base text)).isOk = (compile text).isOk := by
  unfold Path.join
  rw [if_neg (by simp [hrelative])]
  split
  · rename_i hslash
    exact isOk_compile_append hplain hslash
  · have hslashed : isPlain (base ++ "/") = true := by
      unfold isPlain at hplain ⊢
      rw [List.all_append, hplain]
      rfl
    exact isOk_compile_append hslashed (Or.inr (by simp))

theorem isPlain_eq_true_iff : isPlain text = true ↔ ∀ c ∈ text, c ≠ '?' ∧ c ≠ '*' ∧ c ≠ '[' := by
  simp [isPlain, and_assoc]

theorem isPlain_of_mem_segments {segment : Text} (hplain : isPlain text = true)
    (hin : segment ∈ Path.segments text) : isPlain segment = true := by
  rw [isPlain_eq_true_iff] at hplain ⊢
  exact fun c hc => hplain c (Text.mem_of_mem_pieces hin hc)

end

end Phrasebook.Glob
