import Mathlib.Control.Monad.Basic
import Phrasebook.Lexeme.Reader
import Phrasebook.Proofs.Lexeme.Layout
import Phrasebook.Table.GoMap

/-!
# Where constants are declared

A constant is read wherever a name, at most one type name, an equals sign and a literal stand side by side
behind the word `const`, or in a group that it has opened. What stands around these four is not looked at: not the
names that a comma may part from this one, nor what goes on with the value behind the literal.
-/

namespace Phrasebook.Table

open Lexeme

/-! ## Specifications in their places -/

/-- A name, at most one type name, an equals sign and a literal, and what stands around them. -/
structure Specification where
  /-- The lexemes before the name, the nearest first. -/
  before : List Lexeme
  name : Lexeme
  type? : Option Lexeme
  assign : Lexeme
  literal : Lexeme
  /-- The lexemes behind the literal, the nearest first. -/
  behind : List Lexeme
  name_kind : name.kind = .identifier
  type_kind : ∀ type ∈ type?, type.kind = .identifier
  assign_sign : assign.kind = .punctuation ∧ assign.text = "="
  literal_kind : literal.kind = .quoted .double ∨ literal.kind = .quoted .backtick

namespace Specification

def following (spec : Specification) : List Lexeme := spec.type?.toList ++ [spec.assign, spec.literal]

def constant (spec : Specification) : Constant := ⟨spec.name.text, spec.literal.body⟩

/-- The specification stands in this code where it says. -/
def IsIn (code : List Lexeme) (spec : Specification) : Prop :=
  code = spec.before.reverse ++ spec.name :: (spec.following ++ spec.behind)

/-- The first specification stands before the second. -/
def Before (first second : Specification) : Prop := first.before.length < second.before.length

end Specification

/-! ## Declarations -/

def IsConst (lexeme : Lexeme) : Prop := lexeme.kind = .identifier ∧ lexeme.text = "const"

/-- Behind these lexemes, the nearest first, a group of specifications is open. -/
inductive InGroup : List Lexeme → Prop where
  | opened {bracket word : Lexeme} {before : List Lexeme} (hbracket : bracket.kind = .opening .round)
    (hword : IsConst word) : InGroup (bracket :: word :: before)
  | inside {lexeme : Lexeme} {before : List Lexeme} (hopen : lexeme.kind ≠ .closing .round)
    (hgroup : InGroup before) : InGroup (lexeme :: before)

/-- Behind these lexemes, the nearest first, a specification is looked for. -/
inductive InDeclaration : List Lexeme → Prop where
  | single {word : Lexeme} {before : List Lexeme} (hword : IsConst word) : InDeclaration (word :: before)
  | group {before : List Lexeme} (hgroup : InGroup before) : InDeclaration before

/-- The specification belongs to a declaration, and its name is not the type of a name before it. -/
structure Specification.IsDeclared (spec : Specification) : Prop where
  declaration : InDeclaration spec.before
  notType : spec.type? = none → ∀ previous higher, spec.before = previous :: higher →
    previous.kind = .identifier → ¬ InDeclaration higher

/-! ## Reading one specification -/

theorem initialiser?_eq_some_iff {code : List Lexeme} {value : Text} :
    Constant.initialiser? code = some value ↔ ∃ assign literal behind,
      code = assign :: literal :: behind ∧ (assign.kind = .punctuation ∧ assign.text = "=") ∧
        (literal.kind = .quoted .double ∨ literal.kind = .quoted .backtick) ∧ literal.body = value := by
  match code with
  | [] => simp [Constant.initialiser?]
  | [_] => simp [Constant.initialiser?]
  | assign :: literal :: behind =>
    rw [Constant.initialiser?]
    constructor
    · intro h
      split at h
      · rename_i hkinds
        exact ⟨assign, literal, behind, rfl, ⟨hkinds.1, hkinds.2.1⟩, hkinds.2.2, Option.some.inj h⟩
      · cases h
    · rintro ⟨_, _, _, ⟨⟩, hassign, hliteral, rfl⟩
      exact if_pos ⟨hassign.1, hassign.2, hliteral⟩

theorem spec?_specification (spec : Specification) :
    Constant.spec? spec.name (spec.following ++ spec.behind) =
      some (spec.constant, spec.following.length) := by
  obtain ⟨before, name, type?, assign, literal, behind, hname, htype, hassign, hliteral⟩ := spec
  have hvalue : Constant.initialiser? (assign :: literal :: behind) = some literal.body :=
    initialiser?_eq_some_iff.mpr ⟨assign, literal, behind, rfl, hassign, hliteral, rfl⟩
  simp only [Specification.following, Specification.constant]
  cases type? with
  | none => simp [Constant.spec?, hname, hassign.1, hvalue]
  | some type => simp [Constant.spec?, hname, htype type rfl, hvalue]

theorem exists_of_spec? {name : Lexeme} {rest : List Lexeme} {constant : Constant} {width : Nat}
    (h : Constant.spec? name rest = some (constant, width)) (before : List Lexeme) :
    ∃ spec : Specification, spec.before = before ∧ spec.name = name ∧
      rest = spec.following ++ spec.behind ∧ spec.constant = constant ∧ spec.following.length = width := by
  unfold Constant.spec? at h
  split at h
  · rename_i hname
    split at h
    · cases h
    · rename_i next others
      split at h
      · rename_i htype
        obtain ⟨value, hvalue, heq⟩ := Option.map_eq_some_iff.mp h
        obtain ⟨assign, literal, behind, rfl, hassign, hliteral, rfl⟩ := initialiser?_eq_some_iff.mp hvalue
        cases heq
        exact ⟨⟨before, name, some next, assign, literal, behind, hname, by simpa using htype, hassign,
          hliteral⟩, rfl, rfl, rfl, rfl, rfl⟩
      · obtain ⟨value, hvalue, heq⟩ := Option.map_eq_some_iff.mp h
        obtain ⟨assign, literal, behind, hbehind, hassign, hliteral, rfl⟩ :=
          initialiser?_eq_some_iff.mp hvalue
        cases heq
        exact ⟨⟨before, name, none, assign, literal, behind, hname, by simp, hassign, hliteral⟩,
          rfl, rfl, hbehind, rfl, rfl⟩
  · cases h

/-! ## The reader's places -/

theorem inGroup_cons_iff {lexeme : Lexeme} {before : List Lexeme} (h : lexeme.kind ≠ .opening .round) :
    InGroup (lexeme :: before) ↔ lexeme.kind ≠ .closing .round ∧ InGroup before := by
  constructor
  · intro hgroup
    cases hgroup with
    | opened hbracket => exact absurd hbracket h
    | inside hopen hgroup => exact ⟨hopen, hgroup⟩
  · rintro ⟨hopen, hgroup⟩
    exact .inside hopen hgroup

theorem inDeclaration_cons_iff {lexeme : Lexeme} {before : List Lexeme} :
    InDeclaration (lexeme :: before) ↔ IsConst lexeme ∨ InGroup (lexeme :: before) := by
  constructor
  · intro h
    cases h with
    | single hword => exact .inl hword
    | group hgroup => exact .inr hgroup
  · rintro (hword | hgroup)
    · exact .single hword
    · exact .group hgroup

/-- Where the reader stands behind these lexemes. -/
def Fits : Constant.Place → List Lexeme → Prop
  | .outside, before => ¬ InDeclaration before
  | .declaration, before => ¬ InGroup before ∧ ∃ word higher, before = word :: higher ∧ IsConst word
  | .group, before => InGroup before

/-- Had a specification begun with the last lexeme, it would have been read. -/
def Settled (before code : List Lexeme) : Prop :=
  ∀ previous higher, before = previous :: higher → InDeclaration higher →
    Constant.spec? previous code = none

theorem fits_behind {lexeme : Lexeme} {before : List Lexeme} (h : ¬ InGroup (lexeme :: before)) :
    Fits (.behind lexeme) (lexeme :: before) := by
  rw [Constant.Place.behind]
  split
  · rename_i hword
    exact ⟨h, lexeme, before, rfl, hword⟩
  · rename_i hword
    rw [Fits, inDeclaration_cons_iff]
    rintro (hconst | hgroup)
    · exact hword hconst
    · exact h hgroup

/-! ## What stands from a place on -/

/-- The specification stands in `code`, which follows the lexemes of `before`. -/
def Specification.IsFrom (before code : List Lexeme) (spec : Specification) : Prop :=
  ∃ inside, code = inside ++ spec.name :: (spec.following ++ spec.behind) ∧
    spec.before = inside.reverse ++ before

section

variable {before code rest : List Lexeme} {lexeme : Lexeme} {spec other : Specification}

theorem not_isFrom_nil : ¬ spec.IsFrom before [] := by
  rintro ⟨inside, hcode, -⟩
  simp at hcode

theorem isFrom_cons_iff : spec.IsFrom before (lexeme :: rest) ↔
    (spec.before = before ∧ spec.name = lexeme ∧ rest = spec.following ++ spec.behind) ∨
      spec.IsFrom (lexeme :: before) rest := by
  constructor
  · rintro ⟨inside, hcode, hbefore⟩
    cases inside with
    | nil =>
      obtain ⟨rfl, hrest⟩ := List.cons.inj hcode
      exact .inl ⟨hbefore, rfl, hrest⟩
    | cons first inside =>
      obtain ⟨rfl, hrest⟩ := List.cons.inj hcode
      exact .inr ⟨inside, hrest, by simpa using hbefore⟩
  · rintro (⟨hbefore, rfl, rfl⟩ | ⟨inside, rfl, hbefore⟩)
    · exact ⟨[], rfl, hbefore⟩
    · exact ⟨lexeme :: inside, rfl, by simpa using hbefore⟩

theorem length_le_of_isFrom (h : spec.IsFrom before code) : before.length ≤ spec.before.length := by
  obtain ⟨inside, -, hbefore⟩ := h
  simp [hbefore]

/-- Two specifications with the same name and the same code behind it are the same. -/
theorem specification_unique (hbefore : spec.before = other.before) (hname : spec.name = other.name)
    (hrest : spec.following ++ spec.behind = other.following ++ other.behind) : spec = other := by
  obtain ⟨before, name, type?, assign, literal, behind, _, htype, hassign, _⟩ := spec
  obtain ⟨before', name', type?', assign', literal', behind', _, htype', hassign', _⟩ := other
  obtain rfl : before = before' := hbefore
  obtain rfl : name = name' := hname
  -- A type name and an equals sign are of different kinds.
  cases type? with
  | none =>
    cases type?' with
    | none =>
      obtain ⟨rfl, hrest⟩ := List.cons.inj hrest
      obtain ⟨rfl, rfl⟩ := List.cons.inj hrest
      rfl
    | some type' =>
      obtain ⟨rfl, -⟩ := List.cons.inj hrest
      exact absurd (hassign.1.symm.trans (htype' assign rfl)) (by decide)
  | some type =>
    cases type?' with
    | none =>
      obtain ⟨rfl, -⟩ := List.cons.inj hrest
      exact absurd (hassign'.1.symm.trans (htype type rfl)) (by decide)
    | some type' =>
      obtain ⟨rfl, hrest⟩ := List.cons.inj hrest
      obtain ⟨rfl, hrest⟩ := List.cons.inj hrest
      obtain ⟨rfl, rfl⟩ := List.cons.inj hrest
      rfl

theorem isFrom_cons_of_kind (h : lexeme.kind ≠ .identifier) :
    spec.IsFrom before (lexeme :: rest) ↔ spec.IsFrom (lexeme :: before) rest := by
  rw [isFrom_cons_iff, or_iff_right]
  rintro ⟨-, rfl, -⟩
  exact h spec.name_kind

theorem type?_eq_none (h : lexeme :: rest = spec.following ++ spec.behind)
    (hkind : lexeme.kind ≠ .identifier) : spec.type? = none := by
  cases htype : spec.type? with
  | none => rfl
  | some type =>
    rw [Specification.following, htype] at h
    obtain ⟨rfl, -⟩ := List.cons.inj h
    exact absurd (spec.type_kind lexeme htype) hkind

theorem Specification.assign_ne_identifier (spec : Specification) : spec.assign.kind ≠ .identifier := by
  simp [spec.assign_sign.1]

theorem Specification.literal_ne_identifier (spec : Specification) :
    spec.literal.kind ≠ .identifier := by
  rcases spec.literal_kind with hkind | hkind <;> simp [hkind]

/-- Within a specification that is read no other one is: what could be another name is the type of this. -/
theorem isFrom_specification_iff (hin : InDeclaration spec.before) (hother : other.IsDeclared) :
    other.IsFrom spec.before (spec.name :: (spec.following ++ spec.behind)) ↔
      other = spec ∨ other.IsFrom (spec.following.reverse ++ spec.name :: spec.before) spec.behind := by
  rw [isFrom_cons_iff]
  apply or_congr
  · constructor
    · rintro ⟨hbefore, hname, hrest⟩
      exact specification_unique hbefore hname hrest.symm
    · rintro rfl
      exact ⟨rfl, rfl, rfl⟩
  · have hassign := spec.assign_ne_identifier
    have hliteral := spec.literal_ne_identifier
    rw [Specification.following]
    cases htype : spec.type? with
    | none =>
      change other.IsFrom _ (spec.assign :: spec.literal :: spec.behind) ↔ _
      rw [isFrom_cons_of_kind hassign, isFrom_cons_of_kind hliteral]
      rfl
    | some type =>
      change other.IsFrom _ (type :: spec.assign :: spec.literal :: spec.behind) ↔ _
      rw [isFrom_cons_iff, or_iff_right, isFrom_cons_of_kind hassign, isFrom_cons_of_kind hliteral]
      · rfl
      · rintro ⟨hbefore, -, hrest⟩
        exact hother.notType (type?_eq_none hrest hassign) spec.name spec.before hbefore spec.name_kind hin

/-! ## The reader's steps -/

/-- These are the specifications that declare something in `code`, which follows the lexemes of `before`,
one behind the other. -/
structure Lists (before code : List Lexeme) (specs : List Specification) : Prop where
  order : specs.Pairwise Specification.Before
  members : ∀ spec, spec ∈ specs ↔ spec.IsFrom before code ∧ spec.IsDeclared

theorem lists_nil : Lists before [] [] := by
  refine ⟨.nil, fun spec => ?_⟩
  simp [not_isFrom_nil]

/-- A lexeme that begins no specification is passed. -/
theorem Lists.skip {specs : List Specification}
    (hnone : ∀ spec : Specification, spec.before = before → spec.name = lexeme →
      rest = spec.following ++ spec.behind → ¬ spec.IsDeclared)
    (h : Lists (lexeme :: before) rest specs) : Lists before (lexeme :: rest) specs := by
  refine ⟨h.order, fun spec => ?_⟩
  rw [h.members, isFrom_cons_iff]
  constructor
  · rintro ⟨hfrom, hdeclared⟩
    exact ⟨.inr hfrom, hdeclared⟩
  · rintro ⟨⟨hbefore, hname, hrest⟩ | hfrom, hdeclared⟩
    · exact absurd hdeclared (hnone spec hbefore hname hrest)
    · exact ⟨hfrom, hdeclared⟩

theorem Lists.skip_of_spec? {specs : List Specification} (hnone : Constant.spec? lexeme rest = none)
    (h : Lists (lexeme :: before) rest specs) : Lists before (lexeme :: rest) specs := by
  refine h.skip fun spec _ hname hrest _ => ?_
  rw [← hname, hrest, spec?_specification] at hnone
  cases hnone

/-- A specification that is read is passed as a whole. -/
theorem Lists.take {specs : List Specification} (hspec : spec.IsDeclared)
    (h : Lists (spec.following.reverse ++ spec.name :: spec.before) spec.behind specs) :
    Lists spec.before (spec.name :: (spec.following ++ spec.behind)) (spec :: specs) := by
  constructor
  · refine .cons (fun other hother => ?_) h.order
    have hlength := length_le_of_isFrom ((h.members other).mp hother).1
    rw [Specification.Before]
    simp only [List.length_append, List.length_cons] at hlength
    omega
  · intro other
    rw [List.mem_cons, h.members]
    constructor
    · rintro (rfl | ⟨hfrom, hdeclared⟩)
      · exact ⟨(isFrom_specification_iff hspec.declaration hspec).mpr (.inl rfl), hspec⟩
      · exact ⟨(isFrom_specification_iff hspec.declaration hdeclared).mpr (.inr hfrom), hdeclared⟩
    · rintro ⟨hfrom, hdeclared⟩
      exact ((isFrom_specification_iff hspec.declaration hdeclared).mp hfrom).imp_right (⟨·, hdeclared⟩)

end

/-! ## All constants -/

section

variable {before code rest : List Lexeme} {lexeme : Lexeme} {spec : Specification}

/-- The lexemes up to the end of a specification, the nearest first. -/
def Specification.upToEnd (spec : Specification) : List Lexeme :=
  spec.following.reverse ++ spec.name :: spec.before

theorem Specification.upToEnd_eq (spec : Specification) :
    spec.upToEnd = spec.literal :: spec.assign :: (spec.type?.toList.reverse ++ spec.name :: spec.before) := by
  simp [upToEnd, following]

/-- A specification neither opens a group nor closes one. -/
theorem inGroup_upToEnd_iff : InGroup spec.upToEnd ↔ InGroup spec.before := by
  have hname : InGroup (spec.name :: spec.before) ↔ InGroup spec.before := by
    rw [inGroup_cons_iff (by simp [spec.name_kind])]
    simp [spec.name_kind]
  have htype : InGroup (spec.type?.toList.reverse ++ spec.name :: spec.before) ↔ InGroup spec.before := by
    cases htype : spec.type? with
    | none => exact hname
    | some type =>
      have hkind := spec.type_kind type htype
      refine Iff.trans ?_ hname
      exact (inGroup_cons_iff (by simp [hkind])).trans (by simp [hkind])
  have hassign := spec.assign_sign.1
  have hliteral : spec.literal.kind ≠ .opening .round ∧ spec.literal.kind ≠ .closing .round := by
    rcases spec.literal_kind with hkind | hkind <;> simp [hkind]
  rw [spec.upToEnd_eq, inGroup_cons_iff hliteral.1, inGroup_cons_iff (by simp [hassign]), htype]
  simp [hliteral.2, hassign]

theorem inDeclaration_upToEnd_iff : InDeclaration spec.upToEnd ↔ InGroup spec.before := by
  rw [← inGroup_upToEnd_iff, spec.upToEnd_eq, inDeclaration_cons_iff, or_iff_right]
  exact fun hword => spec.literal_ne_identifier hword.1

theorem spec?_eq_none_of_kind (h : lexeme.kind ≠ .identifier) : Constant.spec? lexeme code = none :=
  if_neg h

theorem settled_cons (h : InDeclaration before → Constant.spec? lexeme rest = none) :
    Settled (lexeme :: before) rest := by
  rintro previous higher ⟨⟩ hin
  exact h hin

theorem settled_upToEnd : Settled spec.upToEnd spec.behind := by
  rw [spec.upToEnd_eq]
  exact settled_cons fun _ => spec?_eq_none_of_kind spec.literal_ne_identifier

/-- Without a type of its own, a specification behind a name is also one of that name, whose type it
has then. -/
theorem exists_typed {previous : Lexeme} {higher : List Lexeme} (htype : spec.type? = none)
    (hbefore : spec.before = previous :: higher) (hprevious : previous.kind = .identifier) :
    ∃ other : Specification, other.type? = some spec.name ∧ spec.before = other.name :: other.before ∧
      other.literal = spec.literal ∧
      other.following ++ other.behind = spec.name :: (spec.following ++ spec.behind) :=
  ⟨{ spec with before := higher, name := previous, type? := some spec.name, name_kind := hprevious,
               type_kind := by simpa using spec.name_kind },
    rfl, hbefore, rfl, by simp [Specification.following, htype]⟩

/-- What the reader finds, and has not read as a type before, is declared. -/
theorem isDeclared_of_settled (hin : InDeclaration spec.before)
    (hsettled : Settled spec.before (spec.name :: (spec.following ++ spec.behind))) : spec.IsDeclared := by
  refine ⟨hin, fun htype previous higher hbefore hprevious hhigher => ?_⟩
  obtain ⟨other, -, hname, -, hother⟩ := exists_typed htype hbefore hprevious
  obtain ⟨rfl, rfl⟩ := List.cons.inj (hbefore.symm.trans hname)
  have hnone := hsettled _ _ hbefore hhigher
  rw [← hother, spec?_specification other] at hnone
  cases hnone

/-- In a declaration a specification is read, for its own name or as the type of the name before it. -/
theorem isDeclared_or_typed (hcode : spec.IsIn code) (hin : InDeclaration spec.before) :
    spec.IsDeclared ∨ ∃ other : Specification, (other.IsIn code ∧ other.IsDeclared) ∧
      other.type? = some spec.name ∧ spec.before = other.name :: other.before ∧
      other.literal = spec.literal := by
  by_cases hdeclared : spec.IsDeclared
  · exact .inl hdeclared
  · obtain ⟨htype, previous, higher, hbefore, hprevious, hhigher⟩ : spec.type? = none ∧
        ∃ previous higher, spec.before = previous :: higher ∧ previous.kind = .identifier ∧
          InDeclaration higher := by
      by_contra hnone
      exact hdeclared ⟨hin, fun htype previous higher hbefore hprevious hhigher =>
        hnone ⟨htype, previous, higher, hbefore, hprevious, hhigher⟩⟩
    obtain ⟨other, hother, hname, hliteral, hrest⟩ := exists_typed htype hbefore hprevious
    obtain ⟨rfl, rfl⟩ := List.cons.inj (hbefore.symm.trans hname)
    refine .inr ⟨other, ⟨?_, hhigher, fun hnone => ?_⟩, hother, hname, hliteral⟩
    · rw [Specification.IsIn, hrest, hcode, hname]
      simp
    · rw [hother] at hnone
      cases hnone

theorem exists_lists (place : Constant.Place) (before code : List Lexeme) (hplace : Fits place before)
    (hsettled : Settled before code) :
    ∃ specs, Constant.declared place code = specs.map Specification.constant ∧ Lists before code specs := by
  fun_induction Constant.declared place code generalizing before with
  | case1 => exact ⟨[], rfl, lists_nil⟩
  | case2 lexeme rest ih =>
    have hgroup : ¬ InGroup (lexeme :: before) := by
      intro hgroup
      cases hgroup with
      | opened hbracket hword => exact hplace (.single hword)
      | inside hopen hgroup => exact hplace (.group hgroup)
    obtain ⟨specs, hspecs, hlists⟩ := ih (lexeme :: before) (fits_behind hgroup)
      (settled_cons fun hin => absurd hin hplace)
    refine ⟨specs, hspecs, hlists.skip ?_⟩
    rintro spec rfl - - hdeclared
    exact hplace hdeclared.declaration
  | case3 lexeme rest hround ih =>
    obtain ⟨-, word, higher, rfl, hword⟩ := hplace
    have hnone : Constant.spec? lexeme rest = none := spec?_eq_none_of_kind (by simp [hround])
    obtain ⟨specs, hspecs, hlists⟩ := ih (lexeme :: word :: higher) (.opened hround hword)
      (settled_cons fun _ => hnone)
    exact ⟨specs, hspecs, hlists.skip_of_spec? hnone⟩
  | case4 lexeme rest hround constant width hspec ih =>
    obtain ⟨spec, rfl, rfl, rfl, rfl, rfl⟩ := exists_of_spec? hspec before
    obtain ⟨hgroup, word, higher, hbefore, hword⟩ := hplace
    have hin : InDeclaration spec.before := hbefore ▸ .single hword
    rw [List.drop_left] at ih ⊢
    obtain ⟨specs, hspecs, hlists⟩ := ih spec.upToEnd
      (fun hin => hgroup (inDeclaration_upToEnd_iff.mp hin)) settled_upToEnd
    exact ⟨spec :: specs, congrArg (spec.constant :: ·) hspecs,
      hlists.take (isDeclared_of_settled hin hsettled)⟩
  | case5 lexeme rest hround hspec ih =>
    have hgroup : ¬ InGroup (lexeme :: before) := by
      intro hgroup
      cases hgroup with
      | opened hbracket hword => exact hround hbracket
      | inside hopen hgroup => exact hplace.1 hgroup
    obtain ⟨specs, hspecs, hlists⟩ := ih (lexeme :: before) (fits_behind hgroup)
      (settled_cons fun _ => hspec)
    exact ⟨specs, hspecs, hlists.skip_of_spec? hspec⟩
  | case6 lexeme rest hround ih =>
    have hnone : Constant.spec? lexeme rest = none := spec?_eq_none_of_kind (by simp [hround])
    have hout : ¬ InDeclaration (lexeme :: before) := by
      rw [inDeclaration_cons_iff, inGroup_cons_iff (by simp [hround])]
      rintro (hword | ⟨hopen, -⟩)
      · simp [hword.1] at hround
      · exact hopen hround
    obtain ⟨specs, hspecs, hlists⟩ := ih (lexeme :: before) hout (settled_cons fun _ => hnone)
    exact ⟨specs, hspecs, hlists.skip_of_spec? hnone⟩
  | case7 lexeme rest hround constant width hspec ih =>
    obtain ⟨spec, rfl, rfl, rfl, rfl, rfl⟩ := exists_of_spec? hspec before
    rw [List.drop_left] at ih ⊢
    obtain ⟨specs, hspecs, hlists⟩ := ih spec.upToEnd (inGroup_upToEnd_iff.mpr hplace) settled_upToEnd
    exact ⟨spec :: specs, congrArg (spec.constant :: ·) hspecs,
      hlists.take (isDeclared_of_settled (.group hplace) hsettled)⟩
  | case8 lexeme rest hround hspec ih =>
    obtain ⟨specs, hspecs, hlists⟩ := ih (lexeme :: before) (.inside hround hplace)
      (settled_cons fun _ => hspec)
    exact ⟨specs, hspecs, hlists.skip_of_spec? hspec⟩

theorem isFrom_nil_iff : spec.IsFrom [] code ↔ spec.IsIn code := by
  constructor
  · rintro ⟨inside, rfl, hbefore⟩
    simp [Specification.IsIn, hbefore]
  · intro hin
    exact ⟨spec.before.reverse, hin, by simp⟩

/-- The constants of a source are those of the specifications that are declared in it, in their order. -/
theorem exists_specifications (lexemes : List Lexeme) :
    ∃ specs : List Specification, Constant.all lexemes = specs.map Specification.constant ∧
      specs.Pairwise Specification.Before ∧
      ∀ spec, spec ∈ specs ↔ spec.IsIn (withoutComments lexemes) ∧ spec.IsDeclared := by
  have hstart : ¬ InDeclaration [] := by
    intro hin
    cases hin with
    | group hgroup => cases hgroup
  obtain ⟨specs, hspecs, hlists⟩ :=
    exists_lists .outside [] (withoutComments lexemes) hstart (by rintro _ _ ⟨⟩)
  refine ⟨specs, hspecs, hlists.order, fun spec => ?_⟩
  rw [hlists.members, isFrom_nil_iff]

/-! ## Whole values -/

/-- A comma or an operator, as every mark is but the semicolon: what stands before it goes on behind it. -/
def Joins (lexeme : Lexeme) : Prop :=
  lexeme.kind = .comma ∨ (lexeme.kind = .punctuation ∧ lexeme.text ≠ ";")

/-- The specification has begun before the name: with another name, or with what makes this a part of a type. -/
def Specification.FollowsPart (spec : Specification) : Prop := ∃ previous ∈ spec.before.head?, Joins previous

/-- The value goes on behind the literal, or another one follows. -/
def Specification.IsContinued (spec : Specification) : Prop := ∃ next ∈ spec.behind.head?, Joins next

/-- The name is the only one of its specification, and the literal is all of its value. -/
structure Specification.IsWhole (spec : Specification) : Prop where
  name : ¬ spec.FollowsPart
  /-- The type is not the name of a specification on a further line. -/
  type : ∀ type ∈ spec.type?, type.line = spec.name.line
  value : ¬ spec.IsContinued

/-- The name is not the first part of its specification only in a group: directly behind the word `const`
a specification begins. -/
theorem followsPart_iff (hin : InDeclaration spec.before) :
    spec.FollowsPart ↔
      ∃ previous higher, spec.before = previous :: higher ∧ Joins previous ∧ InGroup higher := by
  constructor
  · rintro ⟨previous, hprevious, hjoins⟩
    obtain ⟨higher, hbefore⟩ := List.head?_eq_some_iff.mp hprevious
    have hkind : previous.kind ≠ .opening .round := by
      rcases hjoins with hkind | ⟨hkind, -⟩ <;> simp [hkind]
    rw [hbefore, inDeclaration_cons_iff, inGroup_cons_iff hkind] at hin
    rcases hin with hword | ⟨-, hgroup⟩
    · simp [Joins, hword.1] at hjoins
    · exact ⟨previous, higher, hbefore, hjoins, hgroup⟩
  · rintro ⟨previous, higher, hbefore, hjoins, -⟩
    exact ⟨previous, by rw [hbefore]; rfl, hjoins⟩

theorem isContinued_iff :
    spec.IsContinued ↔ ∃ next farther, spec.behind = next :: farther ∧ Joins next := by
  simp only [Specification.IsContinued, Option.mem_def, List.head?_eq_some_iff]
  constructor
  · rintro ⟨next, ⟨farther, hbehind⟩, hjoins⟩
    exact ⟨next, farther, hbehind, hjoins⟩
  · rintro ⟨next, farther, hbehind, hjoins⟩
    exact ⟨next, ⟨farther, hbehind⟩, hjoins⟩

/-- What can keep the specification of a constant from being whole. -/
theorem not_isWhole_iff (hin : InDeclaration spec.before) :
    ¬ spec.IsWhole ↔
      (∃ next farther, spec.behind = next :: farther ∧ Joins next) ∨
        (∃ type, spec.type? = some type ∧ type.line ≠ spec.name.line) ∨
        ∃ previous higher, spec.before = previous :: higher ∧ Joins previous ∧ InGroup higher := by
  rw [← followsPart_iff hin, ← isContinued_iff]
  constructor
  · intro h
    by_contra hnone
    simp only [not_or, not_exists, not_and, not_not] at hnone
    exact h ⟨hnone.2.2, hnone.2.1, hnone.1⟩
  · rintro (hcontinued | ⟨type, htype, hline⟩ | hpart) hwhole
    · exact hwhole.value hcontinued
    · exact hline (hwhole.type type htype)
    · exact hwhole.name hpart

theorem value?_map_constant (specs : List Specification) (name : Text) :
    Constant.value? (specs.map Specification.constant) name =
      (specs.reverse.find? fun spec => spec.name.text = name).map fun spec => spec.literal.body := by
  rw [Constant.value?, ← List.map_reverse, List.find?_map, Option.map_map]
  rfl

/-- An entry with a name for its key is dropped for its value, or where no constant has the name. -/
theorem phrase?_of_name {specs : List Specification} {entry : Entry}
    (hkey : entry.key.lexeme.kind = .identifier) :
    GoMap.phrase? (specs.map Specification.constant) entry = none ↔
      GoMap.value? entry.value.lexeme = none ∨ ∀ spec ∈ specs, spec.name.text ≠ entry.key.lexeme.text := by
  have hnone : GoMap.key? (specs.map Specification.constant) entry.key.lexeme = none ↔
      ∀ spec ∈ specs, spec.name.text ≠ entry.key.lexeme.text := by
    rw [GoMap.key?, hkey, value?_map_constant, Option.map_eq_none_iff, List.find?_eq_none]
    simp
  rw [← hnone, GoMap.phrase?]
  cases GoMap.key? (specs.map Specification.constant) entry.key.lexeme <;>
    cases GoMap.value? entry.value.lexeme <;> simp

end

/-- The constants of a source are those of the specifications that are declared in it, whole or not: one is
not where the value goes on behind its literal, where what is read as its type begins a further line, and, in a
group, where other names or a type go on with it. Each specification in a declaration is read, be it as
the type of a name. Names that no specification gives a literal have no value, and their entries are
dropped. -/
theorem constants_of_specifications (lexemes : List Lexeme) :
    ∃ specs : List Specification, Constant.all lexemes = specs.map Specification.constant ∧
      specs.Pairwise Specification.Before ∧
      (∀ spec, spec ∈ specs ↔ spec.IsIn (withoutComments lexemes) ∧ spec.IsDeclared) ∧
      (∀ spec ∈ specs, ¬ spec.IsWhole ↔
        (∃ next farther, spec.behind = next :: farther ∧ Joins next) ∨
          (∃ type, spec.type? = some type ∧ type.line ≠ spec.name.line) ∨
          ∃ previous higher, spec.before = previous :: higher ∧ Joins previous ∧ InGroup higher) ∧
      (∀ spec : Specification, spec.IsIn (withoutComments lexemes) → InDeclaration spec.before →
        spec ∈ specs ∨ ∃ other ∈ specs, other.type? = some spec.name ∧
          spec.before = other.name :: other.before ∧ other.literal = spec.literal) ∧
      ∀ entry ∈ entries lexemes, entry.key.lexeme.kind = .identifier →
        (GoMap.phrase? (Constant.all lexemes) entry = none ↔ GoMap.value? entry.value.lexeme = none ∨
          ∀ spec ∈ specs, spec.name.text ≠ entry.key.lexeme.text) := by
  obtain ⟨specs, hspecs, horder, hexact⟩ := exists_specifications lexemes
  refine ⟨specs, hspecs, horder, hexact, fun spec hspec => ?_, fun spec hcode hin => ?_,
    fun entry _ hkey => ?_⟩
  · exact not_isWhole_iff ((hexact spec).mp hspec).2.declaration
  · rcases isDeclared_or_typed hcode hin with hdeclared | ⟨other, hother, htyped⟩
    · exact .inl ((hexact spec).mpr ⟨hcode, hdeclared⟩)
    · exact .inr ⟨other, (hexact other).mpr hother, htyped⟩
  · rw [hspecs]
    exact phrase?_of_name hkey

/-- The first operand counts, and of two names the last. -/
example : ((readAll "const k = \"a\" + \"b\" const (m, n = \"c\", \"d\")").map Constant.all) =
    .ok [⟨"k", "a"⟩, ⟨"n", "c"⟩] := by
  decide +kernel

end Phrasebook.Table
