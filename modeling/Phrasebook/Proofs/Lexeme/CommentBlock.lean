import Mathlib.Data.List.Chain
import Phrasebook.Lexeme.Comment
import Phrasebook.Proofs.Lexeme.Lines

/-!
# The comments above a key

The comments that lead to a key are a block of lexemes that reaches down to it, each on the lines directly
above the next. Whether a comment shares its line with code is asked of the lexeme directly before it, and
where that is a comment too, the answer may be wrong. This can happen at the top of a block alone.
-/

namespace Phrasebook.Lexeme

/-! ## The block -/

/-- The comments that lead to `line`, as lexemes, the nearest first. -/
def blockAbove (line : Nat) : List Lexeme → List Lexeme
  | [] => []
  | candidate :: before =>
    if candidate.isComment ∧ candidate.lastLine + 1 = line ∧
        ¬ sharesLineWithCode candidate before then
      candidate :: blockAbove candidate.line before
    else []

theorem commentsAbove_eq (line : Nat) (before : List Lexeme) :
    commentsAbove line before = (blockAbove line before).map body := by
  induction before generalizing line with
  | nil => rfl
  | cons candidate before ih =>
    rw [commentsAbove, blockAbove]
    split
    · rw [List.map_cons, ih]
    · rfl

/-- The block above a key, the nearest comment first. -/
def Placed.block (key : Placed) : List Lexeme := blockAbove key.lexeme.line key.before

theorem Placed.leadingComments_eq (key : Placed) :
    key.leadingComments = (key.block.map body).reverse := by
  rw [Placed.leadingComments, commentsAbove_eq]
  rfl

/-- The upper lexeme ends on the line directly above the one where the lower one begins. -/
def EndsAbove (lower upper : Lexeme) : Prop := upper.lastLine + 1 = lower.line

/-- A block of comments between `key` and the lexemes above it, both the nearest first: it is as long as it
can be, and no code stands directly before a comment on its line. -/
structure IsBlock (key : Lexeme) (block above : List Lexeme) : Prop where
  comments : ∀ comment ∈ block, comment.isComment = true
  lines : (key :: block).IsChain EndsAbove
  unshared : ∀ upper comment lower, block = lower ++ comment :: upper →
    sharesLineWithCode comment (upper ++ above) = false
  longest : ∀ candidate higher, above = candidate :: higher → candidate.isComment = true →
    (∀ top ∈ (key :: block).getLast?, EndsAbove top candidate) →
      sharesLineWithCode candidate higher = true

theorem IsBlock.cons {key comment : Lexeme} {block above : List Lexeme}
    (hcomment : comment.isComment = true) (hends : EndsAbove key comment)
    (hshares : sharesLineWithCode comment (block ++ above) = false) (h : IsBlock comment block above) :
    IsBlock key (comment :: block) above := by
  refine ⟨List.forall_mem_cons.mpr ⟨hcomment, h.comments⟩, .cons_cons hends h.lines, ?_, ?_⟩
  · intro upper inner lower hblock
    rcases List.cons_eq_append_iff.mp hblock with ⟨rfl, hinner⟩ | ⟨lower, rfl, hrest⟩
    · obtain ⟨rfl, rfl⟩ := List.cons.inj hinner
      exact hshares
    · exact h.unshared upper inner lower hrest
  · intro candidate higher habove hcandidate htop
    apply h.longest candidate higher habove hcandidate
    simpa using htop

theorem exists_isBlock (key : Lexeme) (before : List Lexeme) :
    ∃ above, before = blockAbove key.line before ++ above ∧
      IsBlock key (blockAbove key.line before) above := by
  induction before generalizing key with
  | nil => exact ⟨[], rfl, by simp [blockAbove], .singleton key, by simp [blockAbove], by simp⟩
  | cons candidate before ih =>
    rw [blockAbove]
    split
    · rename_i hleads
      obtain ⟨hcomment, hline, hshares⟩ := hleads
      obtain ⟨above, hbefore, hblock⟩ := ih candidate
      refine ⟨above, congrArg (candidate :: ·) hbefore, hblock.cons hcomment hline ?_⟩
      rw [← hbefore]
      simpa using hshares
    · rename_i hleads
      refine ⟨candidate :: before, rfl, by simp, .singleton key, by simp, ?_⟩
      rintro _ _ ⟨⟩ hcomment hends
      by_contra hshares
      exact hleads ⟨hcomment, hends key rfl, hshares⟩

/-! ## The lines of the block -/

/-- No code ends on the line where the comment begins, and none begins on the line where it ends. -/
def StandsAlone (lexemes : List Lexeme) (comment : Lexeme) : Prop :=
  ∀ code ∈ lexemes, code.isComment = false →
    code.lastLine ≠ comment.line ∧ code.line ≠ comment.lastLine

/-- Of lexemes, the nearest first, one that is code ends on `line`, and there are comments alone before it,
at least one. -/
def CommentsBehindCode (line : Nat) (above : List Lexeme) : Prop :=
  ∃ comment comments code higher, above = comment :: comments ++ code :: higher ∧
    (∀ between ∈ comment :: comments, between.isComment = true) ∧
    code.isComment = false ∧ code.lastLine = line

/-- The lower lexeme begins on a line that the upper one has ended above. -/
def IsBelow (lower upper : Lexeme) : Prop := upper.lastLine < lower.line

instance : Trans IsBelow IsBelow IsBelow where
  trans hab hbc := Nat.lt_trans (Nat.lt_of_lt_of_le hbc (line_le_lastLine _)) hab

section

variable {lexemes block above : List Lexeme} {key : Placed} {comment code : Lexeme}

/-- From the key upwards, no lexeme ends below the line where a nearer one begins. -/
theorem lines_upwards (hlines : lexemes.Pairwise fun a b => a.lastLine ≤ b.line)
    (hkey : key ∈ placed lexemes) :
    (key.lexeme :: key.before).Pairwise fun lower upper => upper.lastLine ≤ lower.line := by
  have hsplit : lexemes = (key.lexeme :: key.before).reverse ++ key.behind := by
    rw [mem_placed_iff.mp hkey]
    simp
  rw [hsplit, List.pairwise_append, List.pairwise_reverse] at hlines
  exact hlines.1

theorem lines_downwards (hlines : lexemes.Pairwise fun a b => a.lastLine ≤ b.line)
    (hkey : key ∈ placed lexemes) : ∀ lower ∈ key.behind, key.lexeme.lastLine ≤ lower.line := by
  rw [mem_placed_iff.mp hkey, List.pairwise_append] at hlines
  exact fun lower hlower => List.rel_of_pairwise_cons hlines.2.1 hlower

/-- In a block each comment has ended above those that follow it. -/
theorem IsBlock.pairwise {key : Lexeme} (h : IsBlock key block above) :
    (key :: block).Pairwise IsBelow := by
  have hbelow : (key :: block).IsChain IsBelow :=
    h.lines.imp fun _ _ hends => Nat.lt_of_succ_le (Nat.le_of_eq hends)
  exact hbelow.pairwise

/-- A comment that leads to a key has ended above it. -/
theorem Placed.exists_of_mem_leadingComments {key : Placed} {comment : Text}
    (h : comment ∈ key.leadingComments) :
    ∃ lexeme ∈ key.before, lexeme.isComment = true ∧ lexeme.body = comment ∧
      lexeme.lastLine < key.lexeme.line := by
  rw [key.leadingComments_eq, List.mem_reverse] at h
  obtain ⟨lexeme, hlexeme, hbody⟩ := List.mem_map.mp h
  obtain ⟨above, hbefore, hblock⟩ := exists_isBlock key.lexeme key.before
  refine ⟨lexeme, ?_, hblock.comments lexeme hlexeme, hbody,
    List.rel_of_pairwise_cons hblock.pairwise hlexeme⟩
  rw [hbefore]
  exact List.mem_append_left above hlexeme

/-- Where code ends on a line that nothing above it ends below, the nearest code does. -/
theorem exists_nearest_code {line : Nat}
    (hlines : above.Pairwise fun lower upper => upper.lastLine ≤ lower.line)
    (habove : ∀ lexeme ∈ above, lexeme.lastLine ≤ line) (hmem : code ∈ above)
    (hcode : code.isComment = false) (hline : code.lastLine = line) :
    ∃ comments nearest higher, above = comments ++ nearest :: higher ∧
      (∀ between ∈ comments, between.isComment = true) ∧
      nearest.isComment = false ∧ nearest.lastLine = line := by
  induction above with
  | nil => cases hmem
  | cons first rest ih =>
    rw [List.forall_mem_cons] at habove
    cases hfirst : first.isComment with
    | false =>
      refine ⟨[], first, rest, rfl, by simp, hfirst, ?_⟩
      rcases List.mem_cons.mp hmem with rfl | hmem
      · exact hline
      · have hrest := List.rel_of_pairwise_cons hlines hmem
        have hstart := line_le_lastLine first
        omega
    | true =>
      have hrest : code ∈ rest := by
        rcases List.mem_cons.mp hmem with rfl | hmem
        · rw [hcode] at hfirst
          cases hfirst
        · exact hmem
      obtain ⟨comments, nearest, higher, rfl, hcomments, hnearest⟩ := ih hlines.of_cons habove.2 hrest
      exact ⟨first :: comments, nearest, higher, rfl, List.forall_mem_cons.mpr ⟨hfirst, hcomments⟩,
        hnearest⟩

/-- Code that takes part of the lines of a comment in the block ends on the first of them, above the block. -/
theorem IsBlock.code_above (h : IsBlock key.lexeme block above) (hbefore : key.before = block ++ above)
    (hlines : lexemes.Pairwise fun a b => a.lastLine ≤ b.line) (hkey : key ∈ placed lexemes)
    (hcomment : comment ∈ block) (hmem : code ∈ lexemes) (hcode : code.isComment = false)
    (hshares : code.lastLine = comment.line ∨ code.line = comment.lastLine) :
    code ∈ above ∧ code.lastLine = comment.line := by
  have hbelow : comment.lastLine < key.lexeme.line := List.rel_of_pairwise_cons h.pairwise hcomment
  have hspan := line_le_lastLine comment
  have hcodespan := line_le_lastLine code
  have hkeyspan := line_le_lastLine key.lexeme
  have hup := lines_upwards hlines hkey
  rw [hbefore] at hup
  have hcases : code ∈ block ∨ code ∈ above ∨ code = key.lexeme ∨ code ∈ key.behind := by
    rw [mem_placed_iff.mp hkey, hbefore] at hmem
    simpa [or_assoc, or_left_comm] using hmem
  rcases hcases with hblock | habove | rfl | hbehind
  · rw [h.comments code hblock] at hcode
    cases hcode
  · have hends := (List.pairwise_append.mp hup.of_cons).2.2 comment hcomment code habove
    exact ⟨habove, by omega⟩
  · omega
  · have := lines_downwards hlines hkey code hbehind
    omega

theorem IsBlock.standsAlone_iff (h : IsBlock key.lexeme block above)
    (hbefore : key.before = block ++ above)
    (hlines : lexemes.Pairwise fun a b => a.lastLine ≤ b.line) (hkey : key ∈ placed lexemes)
    (hcomment : comment ∈ block) : StandsAlone lexemes comment ↔
      ¬ (block.getLast? = some comment ∧ CommentsBehindCode comment.line above) := by
  have hup := (lines_upwards hlines hkey).of_cons
  rw [hbefore, List.pairwise_append] at hup
  obtain ⟨hblock, habove, hacross⟩ := hup
  constructor
  · rintro halone ⟨-, first, comments, code, higher, rfl, -, hcode, hline⟩
    refine (halone code ?_ hcode).1 hline
    rw [mem_placed_iff.mp hkey, hbefore]
    simp
  · intro hnone code hmem hcode
    by_contra hshares
    obtain ⟨hin, hline⟩ := h.code_above hbefore hlines hkey hcomment hmem hcode (by omega)
    obtain ⟨lower, upper, rfl⟩ := List.append_of_mem hcomment
    cases upper with
    | cons next upper =>
      -- The comment above has ended above the line, and the code before it.
      have hnext : next.lastLine < comment.line := by
        have hinner := (List.pairwise_append.mp h.pairwise.of_cons).2.1
        exact List.rel_of_pairwise_cons hinner List.mem_cons_self
      have hends := hacross next (by simp) code hin
      have hspan := line_le_lastLine next
      omega
    | nil =>
      obtain ⟨comments, nearest, higher, rfl, hcomments, hnearest, hnearline⟩ :=
        exists_nearest_code habove (hacross comment hcomment) hin hcode hline
      cases comments with
      | nil =>
        have hunshared := h.unshared [] comment lower rfl
        simp [sharesLineWithCode, hnearest, hnearline] at hunshared
      | cons first comments =>
        exact hnone ⟨by simp, first, comments, nearest, higher, rfl, hcomments, hnearest, hnearline⟩

end

/-! ## The comments of a key -/

/-- The comments that lead to a key are the block that reaches down to it. Each stands on lines without
code, but for the highest one where it follows another comment that stands behind code on its line. -/
theorem leadingComments_lines {source : Text} {lexemes : List Lexeme} (h : readAll source = .ok lexemes)
    {key : Placed} (hkey : key ∈ placed lexemes) :
    ∃ block above, key.before = block ++ above ∧ key.leadingComments = (block.map body).reverse ∧
      IsBlock key.lexeme block above ∧
      ∀ comment ∈ block, StandsAlone lexemes comment ↔
        ¬ (block.getLast? = some comment ∧ CommentsBehindCode comment.line above) := by
  obtain ⟨stop, hsegmented⟩ := readFrom_eq_ok_iff.mp h
  obtain ⟨above, hbefore, hblock⟩ := exists_isBlock key.lexeme key.before
  refine ⟨key.block, above, hbefore, key.leadingComments_eq, hblock, fun comment hcomment => ?_⟩
  exact hblock.standsAlone_iff hbefore hsegmented.lines.2 hkey hcomment

/-- Of two comments above `b`, the one that another comment parts from the code of its line does not stand
alone. -/
theorem leadingComments_lines_parted :
    let a : Lexeme := ⟨.identifier, "a", ⟨0, 1⟩⟩
    let x : Lexeme := ⟨.blockComment, "/* x */", ⟨2, 1⟩⟩
    let y : Lexeme := ⟨.lineComment, "// y", ⟨10, 1⟩⟩
    let z : Lexeme := ⟨.lineComment, "// z", ⟨15, 2⟩⟩
    let b : Lexeme := ⟨.identifier, "b", ⟨20, 3⟩⟩
    readAll "a /* x */ // y\n// z\nb" = .ok [a, x, y, z, b] ∧
      ⟨b, [z, y, x, a], []⟩ ∈ placed [a, x, y, z, b] ∧
      Placed.leadingComments ⟨b, [z, y, x, a], []⟩ = ["y", "z"] ∧
      StandsAlone [a, x, y, z, b] z ∧ ¬ StandsAlone [a, x, y, z, b] y := by
  intro a x y z b
  have hread : readAll "a /* x */ // y\n// z\nb" = .ok [a, x, y, z, b] := by decide +kernel
  have hkey : ⟨b, [z, y, x, a], []⟩ ∈ placed [a, x, y, z, b] := mem_placed_iff.mpr rfl
  have hfound : Placed.leadingComments ⟨b, [z, y, x, a], []⟩ = ["y", "z"] := by decide +kernel
  refine ⟨hread, hkey, hfound, ?_⟩
  obtain ⟨block, above, hbefore, hcomments, -, halone⟩ := leadingComments_lines hread hkey
  have hlength : block.length = 2 := by
    rw [hfound] at hcomments
    simpa using (congrArg List.length hcomments).symm
  obtain ⟨rfl, rfl⟩ : block = [z, y] ∧ above = [x, a] := by
    have hsplit : [z, y] ++ [x, a] = block ++ above := hbefore
    obtain ⟨hblock, habove⟩ := List.append_inj hsplit hlength.symm
    exact ⟨hblock.symm, habove.symm⟩
  constructor
  · rw [halone z (by simp)]
    rintro ⟨hlast, -⟩
    revert hlast
    decide
  · rw [halone y (by simp), not_not]
    exact ⟨rfl, x, [], a, [], rfl, by decide, rfl, rfl⟩

end Phrasebook.Lexeme
