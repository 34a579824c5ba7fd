import Phrasebook.Engine
import Phrasebook.Proofs.Glob.Front
import Phrasebook.Proofs.Glob.Residual
import Phrasebook.Proofs.Scan.Files

/-!
# Where the base lies

The includes list files of a tree by names alone. Wherever the tree lies, a scan of it reaches the
files so listed, if the base is no pattern itself and there is room for all paths. Literal ignores go
by these names, too. Ignore globs see whole paths, and treat the files alike if none of the patterns
can tell apart what the bases put in front.
-/

namespace Phrasebook.Scan

open FileTree (Entry)

/-! ## Includes of a tree -/

/-- The includes; without any, all that lies in the base. -/
def listed (includes : List Text) : List Text := if includes = [] then [[]] else includes

/-- An include stands for the entry at some names of a tree, which paths write as `text`. -/
inductive StandsFor (tree : FileTree) (include_ : Text) : Text → List Text → Entry → Prop where
  | path {trail : Trail} (literal : Glob.hasWildcard include_ = false) (noNull : '\x00' ∉ include_)
    (follows : (Path.segments include_).foldlM Trail.enter (.top tree) = .ok trail) :
    StandsFor tree include_ include_ (Path.names include_) trail.entry
  | glob {patterns : List Glob.Pattern} {segments : List Text} {entries : FileTree}
    (wildcard : Glob.hasWildcard include_ = true)
    (compiles : Glob.compileComponents include_ = .ok patterns)
    (route : Glob.Route (Glob.steps patterns) (.directory tree) segments (.directory entries)) :
    StandsFor tree include_ (Glob.textOf segments) (Glob.namesOf segments) (.directory entries)

/-- An include lists the file at some names of a tree, which paths write as `text`. -/
def Lists (tree : FileTree) (include_ text : Text) (names : List Text) : Prop :=
  ∃ outer around entry, StandsFor tree include_ outer around entry ∧
    ∃ inner ∈ entry.files, text = Path.below outer inner ∧ names = around ++ inner

/-- What stands in the paths of a scan before the text of what an include lists. -/
def frontText (base include_ : Text) : Text :=
  if Glob.hasWildcard include_ then Glob.frontOf base include_ else Path.join base []

/-- A base that holds a tree, in which the includes stand for what they stand for in the tree. A base
with a dot in front will do for globs if no empty segment and no literal ignore shows the dot. -/
structure Holds (workspace : Workspace) (base : Text) (tree : FileTree)
    (includes ignores : List Text) : Prop where
  sound : workspace.isSound = true
  entry : workspace.entry base = .ok (.directory tree)
  room : ∀ include_ ∈ listed includes,
    Text.byteLength base + Text.byteLength include_ + tree.span + 3 ≤ Path.maxBytes
  globs : ∀ include_ ∈ listed includes, Glob.hasWildcard include_ = true → Glob.isPlain base = true ∧
    (Path.isDotted base = false ∨ ([] ∉ Glob.componentTexts base ∧
      [] ∉ Glob.componentTexts include_ ∧ ∀ ignore ∈ ignores, Glob.hasWildcard ignore = true))

/-! ## Paths below a base -/

/-- The path starts where the base does, and says the base and some names behind it. -/
structure LiesBelow (base path : Text) (names : List Text) : Prop where
  ne_nil : path ≠ []
  isAbsolute_eq : Path.isAbsolute path = Path.isAbsolute base
  behind_eq : Path.behind path = Path.behind base ++ names.map .name

section

variable {workspace : Workspace} {base path file ignore : Text} {names inner : List Text}

theorem LiesBelow.below (h : LiesBelow base path names) (hinner : ∀ name ∈ inner, Path.isName name = true) :
    LiesBelow base (Path.below path inner) (names ++ inner) := by
  obtain ⟨hne, habsolute, -, hbehind⟩ := Path.below_spec h.ne_nil hinner
  refine ⟨hne, habsolute.trans h.isAbsolute_eq, ?_⟩
  rw [hbehind, h.behind_eq, List.append_assoc, List.map_append]

theorem liesBelow_join (hne : base ≠ []) (hrelative : Path.isAbsolute path = false)
    (hclimbs : Path.climbs path = false) : LiesBelow base (Path.join base path) (Path.names path) where
  ne_nil := Path.join_ne_nil hne path
  isAbsolute_eq := Path.isAbsolute_join hne hrelative
  behind_eq := by rw [Path.behind_join hne hrelative, Path.behind_of_not_climbs hclimbs]

theorem LiesBelow.location_eq (h : LiesBelow base file names) :
    workspace.location file = workspace.location base ++ names :=
  Workspace.location_of_behind h.isAbsolute_eq h.behind_eq

theorem LiesBelow.fileName? (h : LiesBelow base file names) (hne : names ≠ []) :
    Path.fileName? file = names.getLast? := by
  obtain ⟨outer, name, rfl⟩ : ∃ outer name, names = outer ++ [name] :=
    ⟨_, _, (List.dropLast_append_getLast hne).symm⟩
  rw [Path.fileName?, Path.components_eq h.ne_nil, h.behind_eq]
  simp

/-- Which files a literal ignore takes can be told from the names alone. -/
theorem LiesBelow.startsWith_iff (h : LiesBelow base file names) (hbase : base ≠ [])
    (hdotted : Path.isDotted file = Path.isDotted base) (hrelative : Path.isAbsolute ignore = false)
    (hclimbs : Path.climbs ignore = false) :
    Path.startsWith file (Path.join base ignore) = true ↔ Path.names ignore <+: names := by
  have hlead : Path.lead file = Path.lead base := by
    rw [Path.lead, Path.lead, h.isAbsolute_eq, hdotted]
  have hname : Function.Injective Path.Component.name := fun _ _ h => Path.Component.name.inj h
  rw [Path.startsWith, List.isPrefixOf_iff_prefix, Path.components_join hbase hrelative,
    Path.components_eq h.ne_nil, h.behind_eq, hlead, ← List.append_assoc, ← Path.components_eq hbase,
    List.prefix_append_right_inj, Path.behind_of_not_climbs hclimbs,
    List.prefix_map_iff_of_injective hname]

end

section

variable {workspace : Workspace} {base include_ file text : Text} {tree : FileTree}
  {includes ignores : List Text} {names inner : List Text}

/-! ## One include -/

theorem frontText_append_path (hliteral : Glob.hasWildcard include_ = false)
    (hrelative : Path.isAbsolute include_ = false) (hinner : ∀ name ∈ inner, Path.isName name = true) :
    frontText base include_ ++ Path.below include_ inner = Path.below (Path.join base include_) inner := by
  rw [frontText, if_neg (by simp [hliteral]), Path.join_eq_append base hrelative,
    Path.below_append (Path.join_nil_cases base) hinner]

theorem frontText_append_glob {patterns : List Glob.Pattern} {segments : List Text} {last : Entry}
    (hwildcard : Glob.hasWildcard include_ = true) (sound : tree.isSound = true)
    (hcompile : Glob.compileComponents include_ = .ok patterns)
    (hroute : Glob.Route (Glob.steps patterns) (.directory tree) segments last)
    (hinner : ∀ name ∈ inner, Path.isName name = true) :
    frontText base include_ ++ Path.below (Glob.textOf segments) inner =
      Path.below (segments.foldl Glob.pathOf (Glob.shown base)) inner := by
  rw [frontText, if_pos hwildcard,
    hroute.foldl_shown (Glob.isSound_directory sound) hcompile hwildcard, Glob.frontOf,
    Path.below_append (Glob.beforeNames_cases _) hinner]

theorem Holds.isSound_tree (h : Holds workspace base tree includes ignores) : tree.isSound = true :=
  Workspace.isSound_of_entry h.sound h.entry

theorem Holds.exists_lists_of_mem_filesFrom (h : Holds workspace base tree includes ignores)
    (hliteral : Glob.hasWildcard include_ = false) (hinner : isInner include_ = true)
    (hfile : file ∈ workspace.filesFrom (Path.join base include_)) :
    ∃ text names, Lists tree include_ text names ∧ file = frontText base include_ ++ text := by
  obtain ⟨hother, -, hclimbs⟩ := isInner_iff.mp hinner
  obtain ⟨-, start, hstart, hentry⟩ := Workspace.entry_eq_ok_iff.mp h.entry
  obtain ⟨entry, inner, hpath, hfiles, hnames, rfl⟩ := Workspace.exists_of_mem_filesFrom h.sound hfile
  obtain ⟨-, trail, hfollows, rfl⟩ := Workspace.entry_eq_ok_iff.mp hpath
  have htrail := (hstart.trail_join hother).symm.trans hfollows.reached
  obtain ⟨inside, hinside, hsame⟩ := Trail.foldlM_enter_congr (.top tree) hentry.symm
    (Path.climbs_eq_false.mp (hclimbs hliteral)) htrail
  have hnull : '\x00' ∉ include_ := fun hnull =>
    hfollows.noNull (Path.mem_join_of_mem hother hnull)
  rw [← hsame] at hfiles
  exact ⟨_, _, ⟨_, _, _, .path hliteral hnull hinside, inner, hfiles, rfl, rfl⟩,
    (frontText_append_path hliteral hother hnames).symm⟩

theorem Holds.exists_lists_of_isGlobbed (h : Holds workspace base tree includes ignores)
    (hin : include_ ∈ listed includes) (hinner : isInner include_ = true)
    (hglobbed : IsGlobbed workspace base include_ file) :
    ∃ text names, Lists tree include_ text names ∧ file = frontText base include_ ++ text := by
  obtain ⟨hother, hdescends, -⟩ := isInner_iff.mp hinner
  obtain ⟨hwildcard, hits, hdirectories, hit, hhit, hfile⟩ := hglobbed
  obtain ⟨hshows, -, patterns, segments, hpatterns, hroute, hsegments⟩ :=
    Glob.exists_route_of_mem_directories h.sound (h.globs include_ hin hwildcard).1 h.entry hother
      (hdescends hwildcard) hdirectories hhit
  obtain ⟨entry, inner, hpath, hfiles, hnames, rfl⟩ := Workspace.exists_of_mem_filesFrom h.sound hfile
  obtain ⟨entries, hhere⟩ : ∃ entries, hit.entry = .directory entries := by
    obtain ⟨-, -, -, hdirectory⟩ := Glob.mem_directories hdirectories hhit
    cases hhere : hit.entry with
    | file content =>
      rw [hhere] at hdirectory
      cases hdirectory
    | directory entries => exact ⟨entries, rfl⟩
  rw [hshows.entry_eq (Workspace.entry_eq_ok_iff.mp hpath).1, hhere] at hpath
  rw [hhere] at hroute
  cases hpath
  refine ⟨_, _, ⟨_, _, _, .glob hwildcard hpatterns hroute, inner, hfiles, rfl, rfl⟩, ?_⟩
  rw [frontText_append_glob hwildcard h.isSound_tree hpatterns hroute hnames, hsegments]

/-- What a literal lists is reached, by the path that the base and the text make up. -/
theorem Holds.mem_reached_of_path {trail : Trail} (h : Holds workspace base tree includes ignores)
    (hin : include_ ∈ listed includes) (hliteral : Glob.hasWildcard include_ = false)
    (hinner : isInner include_ = true) (hnull : '\x00' ∉ include_)
    (hfollows : (Path.segments include_).foldlM Trail.enter (.top tree) = .ok trail)
    (hfiles : inner ∈ trail.entry.files) (hnames : ∀ name ∈ inner, Path.isName name = true) :
    ∃ file ∈ workspace.filesFrom (Path.join base include_),
      file = frontText base include_ ++ Path.below include_ inner ∧
      LiesBelow base file (Path.names include_ ++ inner) ∧ Path.isDotted file = Path.isDotted base := by
  obtain ⟨hother, -, hclimbs⟩ := isInner_iff.mp hinner
  obtain ⟨-, start, hstart, hentry⟩ := Workspace.entry_eq_ok_iff.mp h.entry
  obtain ⟨final, hfinal, hsame⟩ :=
    Trail.foldlM_enter_congr start hentry (Path.climbs_eq_false.mp (hclimbs hliteral)) hfollows
  have room := h.room include_ hin
  have hlength := Path.byteLength_join_le base include_
  have hspan := FileTree.span_of_entryAt? (Trail.IsAt.top.foldlM hfollows).entryAt?
  have hpath : workspace.entry (Path.join base include_) = .ok final.entry :=
    Workspace.entry_eq_ok_iff.mpr
      ⟨decide_eq_true (by omega), final, hstart.join hother hnull hfinal, rfl⟩
  rw [hsame] at hpath
  have hdotted := (Path.below_spec (Path.join_ne_nil hstart.ne_nil include_) hnames).2.2.1
  exact ⟨_, Workspace.below_mem_filesFrom h.sound hpath hfiles (by omega),
    (frontText_append_path hliteral hother hnames).symm,
    (liesBelow_join hstart.ne_nil hother (hclimbs hliteral)).below hnames,
    hdotted.trans (Path.isDotted_join hstart.ne_nil hother)⟩

/-- What a glob lists is reached by such a path, too, and has no dot in front. -/
theorem Holds.mem_reached_of_glob {patterns : List Glob.Pattern} {segments : List Text} {entries : FileTree}
    (h : Holds workspace base tree includes ignores) (hin : include_ ∈ listed includes)
    (hwildcard : Glob.hasWildcard include_ = true) (hinner : isInner include_ = true)
    (hpatterns : Glob.compileComponents include_ = .ok patterns)
    (hroute : Glob.Route (Glob.steps patterns) (.directory tree) segments (.directory entries))
    (hfiles : inner ∈ (Entry.directory entries).files) (hnames : ∀ name ∈ inner, Path.isName name = true) :
    ∃ file, IsGlobbed workspace base include_ file ∧
      file = frontText base include_ ++ Path.below (Glob.textOf segments) inner ∧
      LiesBelow base file (Glob.namesOf segments ++ inner) ∧ Path.isDotted file = false := by
  obtain ⟨hother, hdescends, -⟩ := isInner_iff.mp hinner
  obtain ⟨hplain, hgap⟩ := h.globs include_ hin hwildcard
  obtain ⟨hits, hdirectories, hit, hhit, hend, hsegments, hlength⟩ :=
    Glob.exists_mem_directories_of_route h.sound hplain (hgap.imp_right fun h => ⟨h.1, h.2.1⟩)
      h.entry hother (hdescends hwildcard) hpatterns hroute (h.room include_ hin)
  obtain ⟨hshows, hsound, -⟩ := Glob.exists_route_of_mem_directories h.sound hplain h.entry hother
    (hdescends hwildcard) hdirectories hhit
  rw [← hend] at hroute
  obtain ⟨hdotted, habsolute, hbehind⟩ :=
    Glob.path_of_route hwildcard hpatterns hsound hroute hshows hsegments
  have hbelow : LiesBelow base hit.path (Glob.namesOf segments) := ⟨hshows.ne_nil, habsolute, hbehind⟩
  have hpath := hshows.entry_eq (decide_eq_true (by omega))
  rw [hend] at hpath
  have hin : Path.below hit.path inner ∈ workspace.filesFrom hit.path :=
    Workspace.below_mem_filesFrom h.sound hpath hfiles (by simpa only [Entry.span] using hlength)
  refine ⟨_, ⟨hwildcard, hits, hdirectories, hit, hhit, hin⟩, ?_, hbelow.below hnames,
    (Path.below_spec hshows.ne_nil hnames).2.2.1.trans hdotted⟩
  rw [hsegments]
  rw [hend] at hroute
  exact (frontText_append_glob hwildcard h.isSound_tree hpatterns hroute hnames).symm

/-! ## All includes -/

theorem Holds.filesFrom_join_nil (h : Holds workspace base tree [] ignores) :
    workspace.filesFrom (Path.join base []) = workspace.filesFrom base := by
  have room := h.room [] List.mem_cons_self
  obtain ⟨-, start, hstart, hentry⟩ := Workspace.entry_eq_ok_iff.mp h.entry
  have hnext : (Path.segments []).foldlM Trail.enter start = .ok start := by
    show ([[]] : List Text).foldlM Trail.enter start = .ok start
    rw [List.foldlM_cons, Trail.enter_filler hentry (by decide)]
    rfl
  have hlength := Path.byteLength_join_le base []
  have hjoin : workspace.entry (Path.join base []) = .ok (.directory tree) :=
    Workspace.entry_eq_ok_iff.mpr
      ⟨decide_eq_true (by omega), start, hstart.join (by decide) (by simp) hnext, hentry⟩
  unfold Workspace.filesFrom
  rw [hjoin, h.entry]
  show (tree.filesUnder (Path.join base [])).filter Path.fits = (tree.filesUnder base).filter Path.fits
  refine congrArg (List.filter Path.fits) (List.map_congr_left fun names hnames => ?_)
  have hrelative := Path.isAbsolute_ofSegments (FileTree.names_of_mem_files h.isSound_tree hnames).2
  have hjoined := Path.join_append (Path.join_nil_cases base) [] hrelative
  rw [List.append_nil] at hjoined
  rw [hjoined, Path.join_eq_append base hrelative, Path.nil_join hrelative]

theorem Holds.mem_reached_iff (h : Holds workspace base tree includes ignores) :
    file ∈ reached workspace (places workspace base includes) ↔ ∃ include_ ∈ listed includes,
      (Glob.hasWildcard include_ = false ∧ file ∈ workspace.filesFrom (Path.join base include_)) ∨
        IsGlobbed workspace base include_ file := by
  rw [Scan.mem_reached_iff, listed]
  by_cases hnil : includes = []
  · subst hnil
    have hglobbed : ¬ IsGlobbed workspace base [] file := fun hglobbed => absurd hglobbed.1 (by decide)
    have hliteral : Glob.hasWildcard [] = false := by decide
    simp [hglobbed, hliteral, h.filesFrom_join_nil]
  · simp [hnil]

/-- What is reached from a base is what the includes list in the tree there. -/
theorem Holds.exists_lists_of_mem_reached (h : Holds workspace base tree includes ignores)
    (hincludes : ∀ include_ ∈ listed includes, isInner include_ = true)
    (hin : file ∈ reached workspace (places workspace base includes)) :
    ∃ include_ ∈ listed includes, ∃ text names,
      Lists tree include_ text names ∧ file = frontText base include_ ++ text := by
  obtain ⟨include_, hinclude, hcases⟩ := h.mem_reached_iff.mp hin
  have hinner := hincludes include_ hinclude
  refine ⟨include_, hinclude, ?_⟩
  rcases hcases with ⟨hliteral, hfile⟩ | hglobbed
  · exact h.exists_lists_of_mem_filesFrom hliteral hinner hfile
  · exact h.exists_lists_of_isGlobbed hinclude hinner hglobbed

theorem StandsFor.isName {outer : Text} {around : List Text} {entry : Entry} (sound : tree.isSound = true)
    (h : StandsFor tree include_ outer around entry) (hfiles : inner ∈ entry.files) :
    ∀ name ∈ inner, Path.isName name = true := by
  have hsound : Glob.IsSound entry := by
    cases h with
    | path _ _ hfollows =>
      have hat := (Trail.IsAt.top.foldlM hfollows).entryAt?
      rintro entries hentry
      rw [hentry] at hat
      exact FileTree.isSound_of_entryAt? sound hat
    | glob _ _ hroute => exact hroute.isSound (Glob.isSound_directory sound)
  cases entry with
  | file content =>
    rw [List.mem_singleton.mp hfiles]
    simp
  | directory entries => exact (FileTree.names_of_mem_files (hsound entries rfl) hfiles).2

theorem Holds.mem_reached_of_lists (h : Holds workspace base tree includes ignores)
    (hincludes : ∀ include_ ∈ listed includes, isInner include_ = true)
    (hinclude : include_ ∈ listed includes) (hlists : Lists tree include_ text names) :
    ∃ file ∈ reached workspace (places workspace base includes), file = frontText base include_ ++ text ∧
      LiesBelow base file names ∧ (Path.isDotted file = Path.isDotted base ∨
        ∀ ignore ∈ ignores, Glob.hasWildcard ignore = true) := by
  obtain ⟨outer, around, entry, hstands, inner, hfiles, rfl, rfl⟩ := hlists
  have hinner := hincludes include_ hinclude
  have hnames := hstands.isName h.isSound_tree hfiles
  cases hstands with
  | path hliteral hnull hfollows =>
    obtain ⟨file, hin, htext, hbelow, hdotted⟩ :=
      h.mem_reached_of_path hinclude hliteral hinner hnull hfollows hfiles hnames
    exact ⟨file, h.mem_reached_iff.mpr ⟨include_, hinclude, Or.inl ⟨hliteral, hin⟩⟩, htext, hbelow,
      Or.inl hdotted⟩
  | glob hwildcard hpatterns hroute =>
    obtain ⟨file, hglobbed, htext, hbelow, hdotted⟩ :=
      h.mem_reached_of_glob hinclude hwildcard hinner hpatterns hroute hfiles hnames
    refine ⟨file, h.mem_reached_iff.mpr ⟨include_, hinclude, Or.inr hglobbed⟩, htext, hbelow, ?_⟩
    rcases (h.globs include_ hinclude hwildcard).2 with hnone | ⟨-, -, hall⟩
    · exact Or.inl (hdotted.trans hnone.symm)
    · exact Or.inr hall

end

/-! ## Two bases -/

/-- No ignore glob can tell apart what stands before the files below the two bases. -/
def LookAlike (base base' : Text) (includes ignores : List Text) : Prop :=
  ∀ include_ ∈ listed includes, ∀ pattern ∈ ignoreGlobs ignores,
    Glob.LeavesSame pattern (frontText base include_) (frontText base' include_)

instance (base base' : Text) (includes ignores : List Text) :
    Decidable (LookAlike base base' includes ignores) :=
  inferInstanceAs (Decidable (∀ include_ ∈ listed includes, ∀ pattern ∈ ignoreGlobs ignores,
    Glob.LeavesSame pattern (frontText base include_) (frontText base' include_)))

section

variable {workspace other : Workspace} {base base' file twin include_ text : Text} {tree : FileTree}
  {includes ignores : List Text} {names : List Text} {accepts : Text → Bool}

theorem Holds.base_ne_nil (h : Holds workspace base tree includes ignores) : base ≠ [] := by
  obtain ⟨-, start, hstart, -⟩ := Workspace.entry_eq_ok_iff.mp h.entry
  exact hstart.ne_nil

theorem Holds.ne_nil_of_mem_run (h : Holds workspace base tree includes ignores)
    (hfile : file ∈ (run workspace base includes ignores accepts).files)
    (hlocation : workspace.location file = workspace.location base ++ names) : names ≠ [] := by
  rintro rfl
  obtain ⟨content, hcontent⟩ := isFile_of_mem_run h.sound hfile
  rw [hlocation, List.append_nil, Workspace.entryAt?_location h.sound h.entry] at hcontent
  cases hcontent

/-- Literal ignores take a file below both bases or below none. -/
theorem startsWith_eq_of_liesBelow {ignore : Text} (h : Holds workspace base tree includes ignores)
    (h' : Holds other base' tree includes ignores) (hfile : LiesBelow base file names)
    (htwin : LiesBelow base' twin names)
    (hdotted : Path.isDotted file = Path.isDotted base ∨ ∀ ignore ∈ ignores, Glob.hasWildcard ignore = true)
    (hdotted' : Path.isDotted twin = Path.isDotted base' ∨ ∀ ignore ∈ ignores, Glob.hasWildcard ignore = true)
    (hin : ignore ∈ ignores) (hliteral : Glob.hasWildcard ignore = false)
    (hrelative : Path.isAbsolute ignore = false) (hclimbs : Path.climbs ignore = false) :
    Path.startsWith file (Path.join base ignore) = true ↔
      Path.startsWith twin (Path.join base' ignore) = true := by
  have hsome : ¬ ∀ ignore ∈ ignores, Glob.hasWildcard ignore = true := fun hall => by
    rw [hall ignore hin] at hliteral
    cases hliteral
  rw [hfile.startsWith_iff h.base_ne_nil (hdotted.resolve_right hsome) hrelative hclimbs,
    htwin.startsWith_iff h'.base_ne_nil (hdotted'.resolve_right hsome) hrelative hclimbs]

theorem exists_mem_run_of_holds (h : Holds workspace base tree includes ignores)
    (h' : Holds other base' tree includes ignores)
    (hincludes : ∀ include_ ∈ listed includes, isInner include_ = true)
    (hignores : ∀ ignore ∈ ignores, Glob.hasWildcard ignore = false →
      Path.isAbsolute ignore = false ∧ Path.climbs ignore = false)
    (haccepts : ∀ a b, Path.fileName? a = Path.fileName? b → accepts a = accepts b)
    (halike : LookAlike base base' includes ignores)
    (hfile : file ∈ (run workspace base includes ignores accepts).files)
    (hlocation : workspace.location file = workspace.location base ++ names) :
    ∃ file' ∈ (run other base' includes ignores accepts).files,
      other.location file' = other.location base' ++ names := by
  have hne := h.ne_nil_of_mem_run hfile hlocation
  obtain ⟨hreached, hkept, htaken⟩ := mem_run hfile
  obtain ⟨include_, hinclude, text, inside, hlists, rfl⟩ := h.exists_lists_of_mem_reached hincludes hreached
  obtain ⟨_, -, rfl, hbelow, hdotted⟩ := h.mem_reached_of_lists hincludes hinclude hlists
  obtain ⟨_, htwin, rfl, hbelow', hdotted'⟩ := h'.mem_reached_of_lists hincludes hinclude hlists
  obtain rfl : inside = names := by
    rw [hbelow.location_eq] at hlocation
    exact List.append_cancel_left hlocation
  -- The text and the names of what is listed carry over from one base to the other.
  have hignored : isIgnored base ignores (frontText base include_ ++ text) =
      isIgnored base' ignores (frontText base' include_ ++ text) := by
    rw [Bool.eq_iff_iff, isIgnored_iff, isIgnored_iff]
    refine or_congr (exists_congr fun ignore => and_congr_right fun hin =>
      and_congr_right fun hliteral => ?_) (exists_congr fun pattern => and_congr_right fun hin => ?_)
    · obtain ⟨hrelative, hclimbs⟩ := hignores ignore hin hliteral
      exact startsWith_eq_of_liesBelow h h' hbelow hbelow' hdotted hdotted' hin hliteral hrelative hclimbs
    · rw [(halike include_ hinclude pattern hin).isMatch_eq]
  rw [hignored] at hkept
  rw [haccepts _ _ ((hbelow.fileName? hne).trans (hbelow'.fileName? hne).symm)] at htaken
  obtain ⟨file', hfile', hcomponents⟩ := exists_mem_run htwin hkept htaken
  refine ⟨file', hfile', ?_⟩
  rw [← hbelow'.location_eq, Workspace.location, hcomponents]
  rfl

/-- An engine is chosen by the name of a file alone. -/
theorem handles_congr {config : Config} {a b : Text} (h : Path.fileName? a = Path.fileName? b) :
    config.handles a = config.handles b := by
  rw [Config.handles, Config.handles, Config.engine?, Config.engine?, Path.extension?, Path.extension?,
    h]

theorem LookAlike.symm (h : LookAlike base base' includes ignores) : LookAlike base' base includes ignores :=
  fun include_ hinclude pattern hin => (h include_ hinclude pattern hin).symm

/-- Wherever a tree lies, a scan of it returns the same files. -/
theorem mem_run_iff_of_holds (h : Holds workspace base tree includes ignores)
    (h' : Holds other base' tree includes ignores)
    (hincludes : ∀ include_ ∈ listed includes, isInner include_ = true)
    (hignores : ∀ ignore ∈ ignores, Glob.hasWildcard ignore = false →
      Path.isAbsolute ignore = false ∧ Path.climbs ignore = false)
    (haccepts : ∀ a b, Path.fileName? a = Path.fileName? b → accepts a = accepts b)
    (halike : LookAlike base base' includes ignores) (names : List Text) :
    (∃ file ∈ (run workspace base includes ignores accepts).files,
      workspace.location file = workspace.location base ++ names) ↔
    ∃ file ∈ (run other base' includes ignores accepts).files,
      other.location file = other.location base' ++ names := by
  constructor
  · rintro ⟨file, hfile, hlocation⟩
    exact exists_mem_run_of_holds h h' hincludes hignores haccepts halike hfile hlocation
  · rintro ⟨file, hfile, hlocation⟩
    exact exists_mem_run_of_holds h' h hincludes hignores haccepts halike.symm hfile hlocation

/-- The project lies in `/home/work`, or in a directory above the current one. -/
theorem mem_run_iff_of_holds_elsewhere :
    let tree : FileTree := .directory "build" (.file "a.js" none .empty)
      (.directory "www" (.file "b.js" none (.file "c.min.js" none .empty)) .empty)
    let workspace : Workspace :=
      ⟨.directory "home" (.directory "work" tree .empty) .empty, ["home"]⟩
    let other : Workspace := ⟨.directory "app" .empty (.directory "src" tree .empty), ["app"]⟩
    let ignores : List Text := ["build", "*.min.js", "**/node_modules/**"]
    (run workspace "/home/work" ["*"] ignores Config.standard.handles).files =
        (["/home/work/www/b.js"] : List Text) ∧
      ∃ file ∈ (run other "../src/" ["*"] ignores Config.standard.handles).files,
        other.location file = other.location "../src/" ++ (["www", "b.js"] : List Text) := by
  intro tree workspace other ignores
  have holds : Holds workspace "/home/work" tree ["*"] ignores :=
    ⟨by decide, rfl, by decide, by decide⟩
  have holds' : Holds other "../src/" tree ["*"] ignores :=
    ⟨by decide, rfl, by decide, by decide⟩
  have hincludes : ∀ include_ ∈ listed (["*"] : List Text), isInner include_ = true := by
    decide +kernel
  have halike : LookAlike "/home/work" "../src/" ["*"] ignores := by decide +kernel
  have hrun : (run workspace "/home/work" ["*"] ignores Config.standard.handles).files =
      (["/home/work/www/b.js"] : List Text) := by decide +kernel
  have hfile : "/home/work/www/b.js".toList ∈
      (run workspace "/home/work" ["*"] ignores Config.standard.handles).files := by
    rw [hrun]
    exact List.mem_cons_self
  have hlocation : workspace.location "/home/work/www/b.js" =
      workspace.location "/home/work" ++ (["www", "b.js"] : List Text) := by decide
  exact ⟨hrun, (mem_run_iff_of_holds holds holds' hincludes (by decide) (fun _ _ => handles_congr) halike
    _).mp ⟨_, hfile, hlocation⟩⟩

/-! A base that is read as a pattern stands for other directories, or for none. -/

example :
    let tree : FileTree := .directory "www" (.file "a.js" none .empty) .empty
    (run ⟨.directory "b[1]" tree .empty, []⟩ "b[1]" ["*"] [] fun _ => true).files = [] ∧
      (run ⟨.directory "b1" tree .empty, []⟩ "b1" ["*"] [] fun _ => true).files =
        (["b1/www/a.js"] : List Text) := by
  decide +kernel

end

end Phrasebook.Scan
