import Mathlib.Data.List.TakeWhile
import Phrasebook.Proofs.Glob.Directories

/-!
# The texts of paths

The path of a directory that a glob stands for is the base as the search shows it, with the segments of
the route behind it. What it says from the first name of the route on is the same behind any base. What
is before that is the base's, together with the dots and empty segments that the glob begins with.
-/

namespace Phrasebook.Glob

open FileTree (Entry)

/-- What stands before the first name behind a path: the path with a slash, or nothing where names are
shown alone. -/
def beforeNames (path : Text) : Text := if Path.isCurrent path then [] else Path.join path []

/-- What stands before the first name of what a glob lists behind a plain base. -/
def frontOf (base other : Text) : Text :=
  beforeNames (((componentTexts other).takeWhile Path.isFiller).foldl pathOf (shown base))

/-- The segments from the first name on, as one text. -/
def textOf (segments : List Text) : Text := (segments.dropWhile Path.isFiller).foldl Path.join []

section

variable {path segment base other : Text} {segments components : List Text} {steps : List Step}
  {step : Step} {patterns : List Pattern} {tree : FileTree} {first last : Entry}

/-! ## Joined names -/

theorem beforeNames_cases (path : Text) :
    beforeNames path = [] ∨ (beforeNames path).getLast? = some '/' := by
  unfold beforeNames
  split
  · exact Or.inl rfl
  · exact Path.join_nil_cases path

theorem pathOf_eq_append (path : Text) (hslash : '/' ∉ segment) :
    pathOf path segment = beforeNames path ++ segment := by
  unfold pathOf beforeNames
  split
  · rfl
  · exact Path.join_eq_append path (Path.isAbsolute_of_not_mem hslash)

/-- Behind a name, names are joined. -/
theorem foldl_pathOf_eq_foldl_join (hne : path ≠ []) (h : Path.isCurrent path = false)
    (hslash : ∀ segment ∈ segments, '/' ∉ segment) :
    segments.foldl pathOf path = segments.foldl Path.join path := by
  induction segments generalizing path with
  | nil => rfl
  | cons segment segments ih =>
    rw [List.forall_mem_cons] at hslash
    obtain ⟨hnext, hcurrent⟩ := pathOf_ne_nil hne h hslash.1
    rw [List.foldl_cons, List.foldl_cons, ih hnext hcurrent hslash.2, pathOf, if_neg (by simp [h])]

theorem foldl_pathOf_eq_append (path : Text) (hslash : ∀ segment ∈ segments, '/' ∉ segment)
    (hne : segments ≠ []) (hhead : ∀ segment ∈ segments.head?, Path.isFiller segment = false) :
    segments.foldl pathOf path = beforeNames path ++ segments.foldl Path.join [] := by
  obtain ⟨name, later, rfl⟩ := List.exists_cons_of_ne_nil hne
  obtain ⟨hname, hlater⟩ := List.forall_mem_cons.mp hslash
  have hfiller := hhead name rfl
  have hsome : pathOf path name ≠ [] := by
    rw [pathOf_eq_append path hname]
    intro hnil
    rw [(List.append_eq_nil_iff.mp hnil).2] at hfiller
    cases hfiller
  have hcurrent := isCurrent_pathOf_of_not_isFiller path hname hfiller
  have hjoin : Path.join [] name = name := Path.nil_join (Path.isAbsolute_of_not_mem hname)
  rw [List.foldl_cons, foldl_pathOf_eq_foldl_join hsome hcurrent hlater, pathOf_eq_append path hname,
    Path.foldl_join_append (beforeNames_cases path)
      (fun segment hin => Path.isAbsolute_of_not_mem (hlater segment hin)), List.foldl_cons, hjoin]

/-! ## Fillers in front -/

/-- The first step of a pattern is a lookup only if the first component is a literal. -/
theorem literal?_of_head?_steps {pattern : Pattern}
    (h : .literal segment ∈ (Glob.steps (pattern :: patterns)).head?) : literal? pattern = some segment := by
  generalize hall : pattern :: patterns = all at h
  fun_induction Glob.steps all generalizing pattern patterns with
  | case1 => cases hall
  | case2 | case5 => simp at h
  | case3 | case6 =>
    cases hall
    simp only [List.head?_cons, Option.mem_def, Option.some.injEq] at h
    exact literal?_of_ofPattern h
  | case4 _ next _ _ hnext ih =>
    have hliteral := ih rfl h
    rw [isRecursive_of_literal? hliteral] at hnext
    cases hnext

/-- What is no lookup of a filler leads to names first. -/
theorem Step.Leads.exists_cons (sound : tree.isSound = true) (h : step.Leads tree segments last)
    (hstep : ∀ segment, step = .literal segment → Path.isFiller segment = false) :
    ∃ name later, segments = name :: later ∧ Path.isFiller name = false := by
  have hname {names : List Text} {entry : Entry} (hat : tree.entryAt? names = some entry)
      (hne : names ≠ []) : ∃ name later, names = name :: later ∧ Path.isFiller name = false := by
    obtain ⟨name, later, rfl⟩ := List.exists_cons_of_ne_nil hne
    have hin := FileTree.isName_of_entryAt? sound hat name List.mem_cons_self
    exact ⟨name, later, rfl, (Path.isName_iff.mp hin).1⟩
  cases h with
  | stay filler => exact ⟨_, [], rfl, hstep _ rfl⟩
  | literal => exact ⟨_, [], rfl, hstep _ rfl⟩
  | entry found => exact hname ((FileTree.entryAt?_singleton tree _).trans found) (by simp)
  | below found => exact hname found (by simp)
  | directory hne found => exact hname found hne

/-- The fillers that a route begins with are those of its pattern. -/
theorem Route.takeWhile_isFiller (sound : IsSound first) (h : components.mapM compile = .ok patterns)
    (hroute : Route (Glob.steps patterns) first segments last) :
    segments.takeWhile Path.isFiller = components.takeWhile Path.isFiller := by
  induction components generalizing patterns first segments with
  | nil =>
    cases h
    cases hroute
    rfl
  | cons component components ih =>
    obtain ⟨pattern, later, rfl, hfirst, hothers⟩ := exists_of_mapM_compile_cons h
    cases hfiller : Path.isFiller component with
    | true =>
      have hplain : isPlain component = true := by
        rcases Path.isFiller_cases hfiller with rfl | rfl <;> decide
      rw [compile_plain hplain] at hfirst
      rw [← Except.ok.inj hfirst, steps_cons_plain] at hroute
      cases hroute with
      | step hleads hrest =>
        have hsound := hleads.isSound_entry (sound _ rfl)
        cases hleads <;> simp [hfiller, ih hsound hothers hrest]
    | false =>
      rw [List.takeWhile_cons_of_neg (by simp [hfiller])]
      generalize hsteps : Glob.steps (pattern :: later) = all at hroute
      cases hroute with
      | here => rfl
      | @step step =>
        rename_i hleads _
        obtain ⟨name, more, rfl, hname⟩ := hleads.exists_cons (sound _ rfl) fun segment hsegment => by
          have hhead : .literal segment ∈ (Glob.steps (pattern :: later)).head? := by
            rw [hsteps, hsegment]
            rfl
          rw [(literal_of_compile hfirst (literal?_of_head?_steps hhead)).1]
          exact hfiller
        rw [List.cons_append, List.takeWhile_cons_of_neg (by simp [hname])]

/-! ## Behind a base -/

/-- The path at the end of a route says the front of the base and the segments from the first name on. -/
theorem Route.foldl_shown (sound : IsSound first) (hcompile : compileComponents other = .ok patterns)
    (hwildcard : hasWildcard other = true) (hroute : Route (Glob.steps patterns) first segments last) :
    segments.foldl pathOf (shown base) = frontOf base other ++ textOf segments := by
  have hfillers := hroute.takeWhile_isFiller sound (compileComponents_eq_ok_iff.mp hcompile).2
  have hnames := hroute.namesOf_ne_nil sound (exists_step_of_hasWildcard hwildcard hcompile)
  have hne : segments.dropWhile Path.isFiller ≠ [] := by
    intro hnil
    refine hnames (List.filter_eq_nil_iff.mpr fun segment hin => ?_)
    simpa using List.dropWhile_eq_nil_iff.mp hnil segment hin
  have hslash (segment : Text) (hin : segment ∈ segments.dropWhile Path.isFiller) : '/' ∉ segment :=
    not_mem_of_isPassed (hroute.isPassed sound segment ((List.dropWhile_sublist _).subset hin))
  have hhead (segment : Text) (hin : segment ∈ (segments.dropWhile Path.isFiller).head?) :
      Path.isFiller segment = false := by
    have hnot := List.head?_dropWhile_not Path.isFiller segments
    rw [Option.mem_def.mp hin] at hnot
    exact hnot
  have hsplit : segments.takeWhile Path.isFiller ++ segments.dropWhile Path.isFiller = segments :=
    List.takeWhile_append_dropWhile
  calc segments.foldl pathOf (shown base)
      = (segments.dropWhile Path.isFiller).foldl pathOf
          ((segments.takeWhile Path.isFiller).foldl pathOf (shown base)) := by
        rw [← List.foldl_append, hsplit]
    _ = beforeNames ((segments.takeWhile Path.isFiller).foldl pathOf (shown base)) ++ textOf segments :=
        foldl_pathOf_eq_append _ hslash hne hhead
    _ = frontOf base other ++ textOf segments := by rw [hfillers, frontOf]

end

end Phrasebook.Glob
