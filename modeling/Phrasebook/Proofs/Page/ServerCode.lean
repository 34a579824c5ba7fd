import Phrasebook.Page.ServerCode
import Phrasebook.Proofs.Text.Blank

/-!
# Texts of nothing but server code

A text has nothing to translate if it consists of blanks and server blocks, at least one. The same is
found by taking all blocks out, from left to right, and looking at what is left. What stood around a block
and now stands together is not read again, so that no new block comes about, and whatever is solid outside
the blocks stays.
-/

namespace Phrasebook.Page

open Text

/-! ## Parts -/

/-- A blank or a server block, which goes to the first closing mark. -/
inductive ServerPart where
  | blank (c : Char) (blank : isBlank c = true)
  | block (code : Text) (ends : EndsAt "?>" code)

namespace ServerPart

def text : ServerPart → Text
  | blank c _ => [c]
  | block code _ => "<?" ++ code ++ "?>"

def isBlock : ServerPart → Bool
  | blank _ _ => false
  | block _ _ => true

end ServerPart

/-- The text begins with what is neither a blank nor a server block. -/
inductive Stray : Text → Prop where
  | unterminated {body : Text} (never : ¬ "?>".toList <:+: body) : Stray ("<?" ++ body)
  | closing (rest : Text) : Stray ("?>" ++ rest)
  | solid {c : Char} {rest : Text} (solid : isBlank c = false) (opens : ¬ "<?".toList <+: c :: rest) :
      Stray (c :: rest)

/-! ## Taking blocks out -/

/-- The inside of the server block that the text begins with, and what is behind the block. -/
def blockAt? (text : Text) : Option (Text × Text) := (after? "<?" text).bind (split? "?>")

theorem blockAt?_eq_some_iff {text code behind : Text} :
    blockAt? text = some (code, behind) ↔ text = "<?" ++ code ++ "?>" ++ behind ∧ EndsAt "?>" code := by
  simp only [blockAt?, Option.bind_eq_some_iff, after?_eq_some, split?_eq_some_iff]
  constructor
  · rintro ⟨_, rfl, rfl, ends⟩
    exact ⟨by simp, ends⟩
  · rintro ⟨rfl, ends⟩
    exact ⟨_, by simp, rfl, ends⟩

/-- Whether there is a server block anywhere in the text. -/
def hasBlock : Text → Bool
  | [] => false
  | c :: rest => (blockAt? (c :: rest)).isSome || hasBlock rest

/-- What is left of a text without its server blocks. The next block is looked for behind the last one. -/
def withoutBlocks : Text → Text
  | [] => []
  | c :: rest =>
    match _h : blockAt? (c :: rest) with
    | some (_, behind) => withoutBlocks behind
    | none => c :: withoutBlocks rest
  termination_by text => text.length
  decreasing_by
    · have := congrArg List.length (blockAt?_eq_some_iff.mp _h).1
      simp at this ⊢
      omega
    · simp

section

variable {c : Char} {rest text code behind : Text}

theorem hasBlock_of_blockAt? (h : blockAt? (c :: rest) = some (code, behind)) :
    hasBlock (c :: rest) = true := by
  rw [hasBlock, h]
  rfl

theorem hasBlock_of_none (h : blockAt? (c :: rest) = none) : hasBlock (c :: rest) = hasBlock rest := by
  rw [hasBlock, h]
  rfl

/-- A block that begins somewhere goes to some closing mark, if not to the first one. -/
theorem isSome_blockAt?_iff :
    (blockAt? text).isSome = true ↔ ∃ code behind : Text, text = "<?" ++ code ++ "?>" ++ behind := by
  constructor
  · intro h
    obtain ⟨⟨code, behind⟩, hblock⟩ := Option.isSome_iff_exists.mp h
    exact ⟨code, behind, (blockAt?_eq_some_iff.mp hblock).1⟩
  · rintro ⟨code, behind, rfl⟩
    have hafter : after? "<?" ("<?" ++ code ++ "?>" ++ behind) = some (code ++ "?>" ++ behind) :=
      after?_eq_some.mpr (by simp)
    rw [blockAt?, hafter, Option.bind_some, Option.isSome_iff_ne_none, ne_eq, split?_eq_none_iff, not_not]
    exact ⟨code, behind, rfl⟩

theorem hasBlock_iff : hasBlock text = true ↔
    ∃ before code behind : Text, text = before ++ ("<?" ++ code ++ "?>" ++ behind) := by
  induction text with
  | nil => simp [hasBlock]
  | cons c rest ih =>
    rw [hasBlock, Bool.or_eq_true, isSome_blockAt?_iff, ih]
    constructor
    · rintro (⟨code, behind, htext⟩ | ⟨before, code, behind, rfl⟩)
      · exact ⟨[], code, behind, htext⟩
      · exact ⟨c :: before, code, behind, rfl⟩
    · rintro ⟨before, code, behind, htext⟩
      cases before with
      | nil => exact .inl ⟨code, behind, htext⟩
      | cons first before => exact .inr ⟨before, code, behind, (List.cons.inj htext).2⟩

/-! ## One place after the other -/

theorem isServerCodeAfter_of_blockAt? (h : blockAt? text = some (code, behind)) (seen : Bool) :
    isServerCodeAfter seen text = isServerCodeAfter true behind := by
  obtain ⟨rfl, ends⟩ := blockAt?_eq_some_iff.mp h
  have hsplit : split? "?>" (code ++ "?>" ++ behind) = some (code, behind) :=
    split?_eq_some_iff.mpr ⟨rfl, ends⟩
  have htext : ("<?" ++ code ++ "?>" ++ behind : Text) = '<' :: '?' :: (code ++ "?>" ++ behind) := by
    simp
  rw [htext, isServerCodeAfter]
  split
  · rename_i heq
    cases hsplit.symm.trans heq
    rfl
  · rename_i heq
    cases hsplit.symm.trans heq

theorem isServerCodeAfter_of_none (h : blockAt? (c :: rest) = none) (seen : Bool) :
    isServerCodeAfter seen (c :: rest) = (isBlank c && isServerCodeAfter seen rest) := by
  rw [isServerCodeAfter.eq_def]
  split
  · rename_i heq
    cases heq
  · rename_i body heq
    cases heq
    have hsplit : split? "?>" body = none := h
    split
    · rename_i hsome
      cases hsplit.symm.trans hsome
    · rfl
  · rename_i heq
    cases heq
    rfl

/-- No block begins with a blank. -/
theorem blockAt?_of_isBlank (h : isBlank c = true) (rest : Text) : blockAt? (c :: rest) = none := by
  have hopen : '<' ≠ c := by
    rintro rfl
    cases h
  have hnone : after? "<?" (c :: rest) = none := if_neg hopen
  rw [blockAt?, hnone]
  rfl

theorem Stray.exists_solid (h : Stray text) :
    ∃ c rest, text = c :: rest ∧ isBlank c = false ∧ blockAt? (c :: rest) = none := by
  cases h with
  | @unterminated body never => exact ⟨'<', '?' :: body, rfl, rfl, split?_eq_none_iff.mpr never⟩
  | closing rest => exact ⟨'?', '>' :: rest, rfl, rfl, rfl⟩
  | @solid c rest solid opens =>
    refine ⟨c, rest, rfl, solid, ?_⟩
    have hnone : after? "<?" (c :: rest) = none := by
      refine Option.eq_none_iff_forall_ne_some.mpr fun body hbody => opens ?_
      exact ⟨body, (after?_eq_some.mp hbody).symm⟩
    rw [blockAt?, hnone]
    rfl

/-- What is no block and no blank either is stray. -/
theorem stray_of_none (h : blockAt? (c :: rest) = none) (solid : isBlank c = false) : Stray (c :: rest) := by
  by_cases hopens : "<?".toList <+: c :: rest
  · obtain ⟨body, hbody⟩ := hopens
    rw [← hbody] at h ⊢
    exact .unterminated (split?_eq_none_iff.mp h)
  · exact .solid solid hopens

end

/-! ## Whole texts -/

/-- The text that the parts make up. -/
def written (parts : List ServerPart) : Text := parts.flatMap ServerPart.text

/-- Every text is parts, and then nothing or something stray. -/
theorem exists_parts (text : Text) :
    ∃ parts rest, text = written parts ++ rest ∧ (rest = [] ∨ Stray rest) := by
  fun_induction withoutBlocks text with
  | case1 => exact ⟨[], [], rfl, .inl rfl⟩
  | case2 c rest code behind hblock ih =>
    obtain ⟨parts, others, rfl, hothers⟩ := ih
    obtain ⟨htext, ends⟩ := blockAt?_eq_some_iff.mp hblock
    exact ⟨.block code ends :: parts, others, by simp [htext, written, ServerPart.text], hothers⟩
  | case3 c rest hnone ih =>
    cases hblank : isBlank c with
    | false => exact ⟨[], c :: rest, rfl, .inr (stray_of_none hnone hblank)⟩
    | true =>
      obtain ⟨parts, others, rfl, hothers⟩ := ih
      exact ⟨.blank c hblank :: parts, others, rfl, hothers⟩

theorem isServerCodeAfter_written (seen : Bool) (parts : List ServerPart) (rest : Text) :
    isServerCodeAfter seen (written parts ++ rest) =
      isServerCodeAfter (seen || parts.any ServerPart.isBlock) rest := by
  induction parts generalizing seen with
  | nil => simp [written]
  | cons part parts ih =>
    have htext : written (part :: parts) ++ rest = part.text ++ (written parts ++ rest) := by
      simp [written]
    rw [htext]
    cases part with
    | blank c hblank =>
      have hstep := isServerCodeAfter_of_none (blockAt?_of_isBlank hblank (written parts ++ rest)) seen
      rw [hblank, Bool.true_and, ih] at hstep
      simpa [ServerPart.text, ServerPart.isBlock] using hstep
    | block code ends =>
      have hblock : blockAt? ("<?" ++ code ++ "?>" ++ (written parts ++ rest)) =
          some (code, written parts ++ rest) := blockAt?_eq_some_iff.mpr ⟨rfl, ends⟩
      rw [ServerPart.text, isServerCodeAfter_of_blockAt? hblock, ih]
      simp [ServerPart.isBlock]

theorem Stray.isServerCodeAfter_eq {text : Text} (h : Stray text) (seen : Bool) :
    isServerCodeAfter seen text = false := by
  obtain ⟨c, rest, rfl, hsolid, hnone⟩ := h.exists_solid
  rw [isServerCodeAfter_of_none hnone, hsolid, Bool.false_and]

/-- Reading place by place finds what is found by taking the blocks out. -/
theorem isServerCodeAfter_eq_withoutBlocks (seen : Bool) (text : Text) :
    isServerCodeAfter seen text = ((seen || hasBlock text) && allBlank (withoutBlocks text)) := by
  fun_induction withoutBlocks text generalizing seen with
  | case1 => simp [isServerCodeAfter, hasBlock, allBlank]
  | case2 c rest code behind hblock ih =>
    rw [isServerCodeAfter_of_blockAt? hblock, hasBlock_of_blockAt? hblock, ih]
    simp
  | case3 c rest hnone ih =>
    rw [isServerCodeAfter_of_none hnone, hasBlock_of_none hnone, ih]
    simp only [allBlank, List.all_cons]
    exact Bool.and_left_comm ..

/-! ## Nothing but server code -/

theorem isOnlyServerCode_written (parts : List ServerPart) :
    isOnlyServerCode (written parts) = parts.any ServerPart.isBlock := by
  have hwritten := isServerCodeAfter_written false parts []
  rw [List.append_nil, Bool.false_or, isServerCodeAfter] at hwritten
  exact hwritten

theorem isOnlyServerCode_of_stray (parts : List ServerPart) {rest : Text} (h : Stray rest) :
    isOnlyServerCode (written parts ++ rest) = false := by
  rw [isOnlyServerCode, isServerCodeAfter_written, h.isServerCodeAfter_eq]

theorem allBlank_written (parts : List ServerPart) :
    allBlank (written parts) = !parts.any ServerPart.isBlock := by
  induction parts with
  | nil => rfl
  | cons part parts ih =>
    have htext : written (part :: parts) = part.text ++ written parts := rfl
    rw [htext, allBlank_append, ih]
    cases part with
    | blank c hblank => simp [ServerPart.text, ServerPart.isBlock, allBlank, hblank]
    | block code ends =>
      have hmark : isBlank '<' = false := rfl
      simp [ServerPart.text, ServerPart.isBlock, allBlank, hmark]

section

variable {text : Text}

theorem isOnlyServerCode_eq_true_iff : isOnlyServerCode text = true ↔
    ∃ parts, text = written parts ∧ ∃ part ∈ parts, part.isBlock = true := by
  constructor
  · intro h
    obtain ⟨parts, rest, rfl, rfl | hstray⟩ := exists_parts text
    · rw [List.append_nil] at h ⊢
      rw [isOnlyServerCode_written, List.any_eq_true] at h
      exact ⟨parts, rfl, h⟩
    · rw [isOnlyServerCode_of_stray parts hstray] at h
      cases h
  · rintro ⟨parts, rfl, hblock⟩
    rw [isOnlyServerCode_written, List.any_eq_true]
    exact hblock

theorem isOnlyServerCode_eq_false_iff : isOnlyServerCode text = false ↔
    allBlank text = true ∨ ∃ parts rest, text = written parts ++ rest ∧ Stray rest := by
  constructor
  · intro h
    obtain ⟨parts, rest, rfl, rfl | hstray⟩ := exists_parts text
    · rw [List.append_nil, isOnlyServerCode_written] at h
      rw [List.append_nil, allBlank_written, h]
      exact .inl rfl
    · exact .inr ⟨parts, rest, rfl, hstray⟩
  · rintro (hblank | ⟨parts, rest, rfl, hstray⟩)
    · obtain ⟨parts, rest, rfl, rfl | hstray⟩ := exists_parts text
      · rw [List.append_nil, allBlank_written, Bool.not_eq_true'] at hblank
        rw [List.append_nil, isOnlyServerCode_written, hblank]
      · exact isOnlyServerCode_of_stray parts hstray
    · exact isOnlyServerCode_of_stray parts hstray

end

/-- A text is nothing but server code if and only if it is made of blanks and blocks, with a block among
them. It is something else if and only if it is all blank, or something stray stands behind blanks and blocks.
Taking the blocks out finds the same: there was one, and only blanks are left. -/
theorem isOnlyServerCode_verdict (text : Text) :
    (isOnlyServerCode text = true ↔
      ∃ parts, text = written parts ∧ ∃ part ∈ parts, part.isBlock = true) ∧
    (isOnlyServerCode text = false ↔
      allBlank text = true ∨ ∃ parts rest, text = written parts ++ rest ∧ Stray rest) ∧
    (isOnlyServerCode text = true ↔
      (∃ before code behind : Text, text = before ++ ("<?" ++ code ++ "?>" ++ behind)) ∧
        trim (withoutBlocks text) = []) := by
  refine ⟨isOnlyServerCode_eq_true_iff, isOnlyServerCode_eq_false_iff, ?_⟩
  rw [isOnlyServerCode, isServerCodeAfter_eq_withoutBlocks, Bool.false_or, Bool.and_eq_true, hasBlock_iff,
    trim_eq_nil_iff]

/-- The marks of a block share no character, and what is left around one makes up no other. -/
example : isOnlyServerCode "<??>" = true ∧ isOnlyServerCode "<?>" = false ∧
    isOnlyServerCode "<<?a?>?b?>" = false := by decide +kernel

end Phrasebook.Page
