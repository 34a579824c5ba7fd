import Mathlib.Data.List.Induction
import Phrasebook.Config.Search
import Phrasebook.Proofs.Path.Parents
import Phrasebook.Proofs.Workspace

/-!
# Where the configuration is found

The search goes by the text of the path. As far as this ends in names, the directories searched are
the one that the path leads to and those above it, and the nearest one that holds a configuration
decides. Behind a way up, and above the place that the path starts from, the search leaves these
directories; an absolute path starts at the top, above which there is nothing.
-/

namespace Phrasebook

namespace Workspace

/-- A path along which one comes to a directory. The empty path, which is no path to anything, leads to
the directory that paths start from. -/
structure Opens (workspace : Workspace) (path : Text) : Prop where
  noNull : '\x00' ∉ path
  opens : ∃ trail entries, workspace.trail path = .ok trail ∧ trail.entry = .directory entries

section

variable {workspace : Workspace} {path outer name : Text}

theorem opens_of_isDirectory (h : workspace.isDirectory path = true) : workspace.Opens path := by
  obtain ⟨entries, hentry⟩ := isDirectory_iff.mp h
  obtain ⟨-, trail, follows, hdirectory⟩ := entry_eq_ok_iff.mp hentry
  exact ⟨follows.noNull, trail, entries, follows.reached, hdirectory⟩

/-- What a path leads through is open, too. -/
theorem Opens.of_isOuter (h : workspace.Opens path) (hstep : Path.IsOuter outer path) :
    workspace.Opens outer := by
  obtain ⟨trail, entries, hreached, -⟩ := h.opens
  obtain ⟨here, hstart, hreached⟩ := trail_eq_ok_iff.mp hreached
  have hstart' : workspace.start outer = .ok here :=
    (start_congr hstep.isAbsolute_eq).trans hstart
  have hinside : ∃ inside, here.entry = .directory inside := by
    obtain ⟨leading, others, hs⟩ := Path.exists_segments path
    rw [hs, List.foldlM_cons] at hreached
    obtain ⟨next, henter, -⟩ := bind_eq_ok.mp hreached
    obtain ⟨inside, hinside, -⟩ := Trail.enter_cases henter
    exact ⟨inside, hinside⟩
  obtain ⟨inside, hinside⟩ := hinside
  refine ⟨fun hnull => h.noNull (hstep.front.subset hnull), ?_⟩
  rcases hstep.segments_eq with rfl | rfl | ⟨more, hmore, hsegments⟩
  · exact ⟨here, inside, trail_of_fillers hstart' hinside (by decide), hinside⟩
  · exact ⟨here, inside, trail_of_fillers hstart' hinside (by decide), hinside⟩
  · obtain ⟨first, later, rfl⟩ := List.exists_cons_of_ne_nil hmore
    rw [hsegments, List.foldlM_append] at hreached
    obtain ⟨middle, houter, hreached⟩ := bind_eq_ok.mp hreached
    rw [List.foldlM_cons] at hreached
    obtain ⟨next, henter, -⟩ := bind_eq_ok.mp hreached
    obtain ⟨between, hbetween, -⟩ := Trail.enter_cases henter
    exact ⟨middle, between, trail_eq_ok_iff.mpr ⟨here, hstart', houter⟩, hbetween⟩

/-! ## Entries of an open directory -/

theorem behind_join_name (hname : Path.isName name = true) (path : Text) :
    Path.behind (Path.join path name) = Path.behind path ++ [.name name] := by
  have hslash : '/' ∉ name := (Path.isName_iff.mp hname).2.2.1
  have hrelative := Path.isAbsolute_of_not_mem hslash
  have hone : Path.behind name = [.name name] := by
    rw [Path.behind, Path.segments_of_not_mem hslash, List.filterMap_cons_some (Path.component?_of_isName hname)]
    rfl
  by_cases hne : path = []
  · rw [hne, Path.nil_join hrelative, hone]
    rfl
  · rw [Path.behind_join hne hrelative, hone]

theorem isAbsolute_join_name (hname : Path.isName name = true) (path : Text) :
    Path.isAbsolute (Path.join path name) = Path.isAbsolute path := by
  have hname' := Path.isAbsolute_of_not_mem (Path.isName_iff.mp hname).2.2.1
  by_cases hne : path = []
  · rw [hne, Path.nil_join hname', hname']
    rfl
  · exact Path.isAbsolute_join hne hname'

theorem location_join_name (hname : Path.isName name = true) (path : Text) :
    workspace.location (Path.join path name) = workspace.location path ++ [name] :=
  location_of_behind (isAbsolute_join_name hname path) (behind_join_name hname path)

/-- A name in an open directory leads somewhere exactly if the directory holds an entry of it. -/
theorem exists?_join_name (sound : workspace.isSound = true) (h : workspace.Opens path)
    (hname : Path.isName name = true) (room : Path.fits (Path.join path name) = true) :
    workspace.exists? (Path.join path name) =
      (workspace.tree.entryAt? (workspace.location path ++ [name])).isSome := by
  obtain ⟨trail, entries, hreached, hdirectory⟩ := h.opens
  obtain ⟨hfiller, hup, hslash, hnull, -⟩ := Path.isName_iff.mp hname
  have hrelative := Path.isAbsolute_of_not_mem hslash
  have hsegments := Path.segments_of_not_mem hslash
  have hat := isAt_of_trail (isName_of_isSound sound) hreached
  have hjoin : workspace.trail (Path.join path name) = trail.enter name := by
    by_cases hne : path = []
    · subst hne
      obtain ⟨here, hstart, hnil⟩ := trail_eq_ok_iff.mp hreached
      have hsame : trail = here := by
        refine Trail.eq_of_foldlM_fillers ?_ hnil
        decide
      have hstart' : workspace.start name = .ok here := (start_congr hrelative).trans hstart
      rw [Path.nil_join hrelative, Workspace.trail, hstart', hsame, hsegments]
      exact bind_pure (here.enter name)
    · rw [Follows.trail_join ⟨hne, h.noNull, hreached⟩ hrelative, hsegments]
      exact bind_pure (trail.enter name)
  rw [FileTree.entryAt?_append (hat.entryAt?.trans (congrArg some hdirectory)),
    FileTree.entryAt?_singleton, Bool.eq_iff_iff, exists?, isOk_iff, Option.isSome_iff_exists]
  constructor
  · rintro ⟨entry, hentry⟩
    obtain ⟨-, next, follows, rfl⟩ := entry_eq_ok_iff.mp hentry
    rw [Follows.reached follows] at hjoin
    obtain ⟨entries', hdirectory', ⟨hyes, -⟩ | ⟨hyes, -⟩ | ⟨-, -, entry, hfind, -⟩⟩ :=
      Trail.enter_cases hjoin.symm
    · rw [hfiller] at hyes
      cases hyes
    · exact absurd hyes hup
    · rw [hdirectory] at hdirectory'
      cases hdirectory'
      exact ⟨entry, hfind⟩
  · rintro ⟨entry, hfind⟩
    have hne : Path.join path name ≠ [] := by
      intro hnil
      have hbehind := behind_join_name hname path
      rw [hnil] at hbehind
      exact absurd hbehind (by simp [Path.behind, Path.segments, Text.pieces, Path.component?])
    refine ⟨entry, entry_eq_ok_iff.mpr ⟨room, ⟨entry, entries :: trail.around⟩,
      ⟨hne, Path.not_mem_join (by decide) hrelative h.noNull hnull, ?_⟩, rfl⟩⟩
    rw [hjoin, Trail.enter_name hdirectory hname hfind]

end

end Workspace

namespace Config

/-- Whether an entry of the name lies in the directory that the names lead to. -/
def holds (tree : FileTree) (directory : List Text) (name : Text) : Bool :=
  (tree.entryAt? (directory ++ [name])).isSome

/-- The directory in which the configuration file for a path is found. -/
def foundIn? (workspace : Workspace) (path : Text) : Option (List Text) :=
  (find? workspace path).map fun file => (workspace.location file).dropLast

/-- Of a directory and those above it, the nearest one with a configuration file, if no directory
before it holds a repository. -/
structure IsNearest (tree : FileTree) (start directory : List Text) : Prop where
  above : directory <+: start
  found : holds tree directory fileName = true
  nearer : ∀ inner, inner <+: start → directory <+: inner → inner ≠ directory →
    holds tree inner fileName = false ∧ holds tree inner repositoryName = false

/-- The first directory with a configuration file, up to the first that holds a repository. -/
def firstIn? (tree : FileTree) : List (List Text) → Option (List Text)
  | [] => none
  | directory :: others =>
    if holds tree directory fileName then some directory
    else if holds tree directory repositoryName then none
    else firstIn? tree others

section

variable {workspace : Workspace} {tree : FileTree} {path other name : Text} {paths : List Text}
  {start directory here : List Text} {places : List (List Text)}

/-! ## Room -/

theorem byteLength_join (hrelative : Path.isAbsolute name = false) (path : Text) :
    Text.byteLength path + Text.byteLength name ≤ Text.byteLength (Path.join path name) := by
  obtain ⟨slash, -, heq⟩ := Path.exists_join_eq path hrelative
  rw [heq, Text.byteLength_append, Text.byteLength_append]
  omega

theorem fits_join_repositoryName (room : Path.fits (Path.join path fileName) = true) :
    Path.fits (Path.join path repositoryName) = true := by
  have hlonger : Text.byteLength path + Text.byteLength fileName ≤
      Text.byteLength (Path.join path fileName) := byteLength_join (by decide) path
  have hjoin := Path.byteLength_join_le path repositoryName
  have hnames : Text.byteLength repositoryName + 1 ≤ Text.byteLength fileName := by decide
  unfold Path.fits at room ⊢
  rw [decide_eq_true_eq] at room ⊢
  omega

theorem fits_join_of_isOuter {outer : Text} (hstep : Path.IsOuter outer path)
    (room : Path.fits (Path.join path fileName) = true) :
    Path.fits (Path.join outer fileName) = true := by
  obtain ⟨rest, hrest⟩ := hstep.front
  obtain ⟨c, rest, rfl⟩ : ∃ c more, rest = c :: more := by
    refine List.exists_cons_of_ne_nil ?_
    rintro rfl
    have hshorter := hstep.shorter
    rw [← hrest, List.append_nil] at hshorter
    exact lt_irrefl _ hshorter
  have hbytes : Text.byteLength path = Text.byteLength outer + (c.utf8Size + Text.byteLength rest) := by
    rw [← hrest, Text.byteLength_append, Text.byteLength_cons]
  have hpos := c.utf8Size_pos
  have hlonger : Text.byteLength path + Text.byteLength fileName ≤
      Text.byteLength (Path.join path fileName) := byteLength_join (by decide) path
  have hjoin := Path.byteLength_join_le outer fileName
  unfold Path.fits at room ⊢
  rw [decide_eq_true_eq] at room ⊢
  omega

/-! ## The nearest directory -/

theorem isNearest_of_holds (hfound : holds tree start fileName = true) :
    IsNearest tree start directory ↔ directory = start := by
  constructor
  · intro h
    by_contra hne
    have hnot := (h.nearer start List.prefix_rfl h.above (Ne.symm hne)).1
    rw [hfound] at hnot
    cases hnot
  · rintro rfl
    refine ⟨List.prefix_rfl, hfound, fun inner hinner hdirectory hne => ?_⟩
    exact absurd (hinner.eq_of_length_le hdirectory.length_le) hne

theorem not_isNearest_of_repository (hnone : holds tree start fileName = false)
    (hrepository : holds tree start repositoryName = true) : ¬ IsNearest tree start directory := by
  intro h
  by_cases hsame : directory = start
  · have hfound := h.found
    rw [hsame, hnone] at hfound
    cases hfound
  · have hnot := (h.nearer start List.prefix_rfl h.above (Ne.symm hsame)).2
    rw [hrepository] at hnot
    cases hnot

/-- A directory that holds neither is passed by. -/
theorem isNearest_concat (hnone : holds tree (here ++ [name]) fileName = false)
    (hopen : holds tree (here ++ [name]) repositoryName = false) :
    IsNearest tree (here ++ [name]) directory ↔ IsNearest tree here directory := by
  constructor
  · intro h
    refine ⟨?_, h.found, fun inner hinner => h.nearer inner (hinner.trans (List.prefix_append _ _))⟩
    refine (List.prefix_concat_iff.mp h.above).resolve_left ?_
    rintro rfl
    have hfound := h.found
    rw [hnone] at hfound
    cases hfound
  · intro h
    refine ⟨h.above.trans (List.prefix_append _ _), h.found, fun inner hinner hdirectory hne => ?_⟩
    rcases List.prefix_concat_iff.mp hinner with rfl | hinner
    · exact ⟨hnone, hopen⟩
    · exact h.nearer inner hinner hdirectory hne

/-! ## The search by places -/

theorem mem_of_firstIn? (h : firstIn? tree places = some directory) :
    directory ∈ places ∧ holds tree directory fileName = true := by
  fun_induction firstIn? tree places with
  | case1 => cases h
  | case2 first others hfound =>
    cases h
    exact ⟨List.mem_cons_self, hfound⟩
  | case3 => cases h
  | case4 first others _ _ ih => exact (ih h).imp_left (List.mem_cons_of_mem _)

/-- What the search finds depends on the places of the directories alone. -/
theorem findIn?_places (sound : workspace.isSound = true)
    (h : ∀ path ∈ paths, workspace.Opens path ∧ Path.fits (Path.join path fileName) = true) :
    ((findIn? workspace paths).map fun file => (workspace.location file).dropLast) =
      firstIn? workspace.tree (paths.map workspace.location) := by
  have hfile : Path.isName fileName = true := by decide
  have hrepository : Path.isName repositoryName = true := by decide
  induction paths with
  | nil => rfl
  | cons path paths ih =>
    obtain ⟨⟨hopens, room⟩, h⟩ := List.forall_mem_cons.mp h
    have room' := fits_join_repositoryName room
    rw [findIn?, List.map_cons, firstIn?, ← ih h,
      Workspace.exists?_join_name sound hopens hfile room,
      Workspace.exists?_join_name sound hopens hrepository room']
    unfold holds
    split
    · rw [Option.map_some, Workspace.location_join_name hfile, List.dropLast_concat]
    · split <;> rfl

/-- Along the names at the end of a path the search goes through the directories above it. -/
theorem firstIn?_climb {outer : List Path.Component} {names : List Text} {count : Nat}
    (hcount : path.length ≤ count) (hbehind : Path.behind path = outer ++ names.map .name)
    (hbase : outer.foldl Path.Component.place (workspace.origin path) <+: directory)
    (habove : directory <+: workspace.location path) :
    firstIn? tree ((Path.climb count path).map workspace.location) = some directory ↔
      IsNearest tree (workspace.location path) directory := by
  induction names using List.reverseRecOn generalizing path count with
  | nil =>
    -- Only the path itself leads to the directory: should it be found later, it is found here already.
    have hsame : directory = workspace.location path := by
      refine habove.eq_of_length_le ?_
      rw [Workspace.location_eq, hbehind]
      simpa using hbase.length_le
    obtain ⟨others, hothers⟩ := Path.exists_climb_eq count path
    rw [hothers, List.map_cons, ← hsame]
    constructor
    · intro h
      exact (isNearest_of_holds (mem_of_firstIn? h).2).mpr rfl
    · intro h
      rw [firstIn?, if_pos h.found]
  | append_singleton names name ih =>
    obtain ⟨above, hparent⟩ := Path.exists_parent? (show Path.behind path ≠ [] by simp [hbehind])
    have hstep := Path.isOuter_of_parent? hparent
    obtain ⟨count, rfl⟩ : ∃ more, count = more + 1 :=
      Nat.exists_eq_add_one.mpr ((Nat.zero_le _).trans_lt (hstep.shorter.trans_le hcount))
    have hbehind' : Path.behind above = outer ++ names.map .name := by
      rw [hstep.behind_eq, hbehind, List.map_append, ← List.append_assoc]
      exact List.dropLast_concat
    have hlocation : workspace.location path = workspace.location above ++ [name] := by
      refine Workspace.location_of_behind hstep.isAbsolute_eq.symm ?_
      rw [hbehind, hbehind', List.map_append, List.append_assoc]
    rw [Path.climb_of_parent? hparent, List.map_cons, firstIn?]
    cases hfound : holds tree (workspace.location path) fileName with
    | true =>
      rw [if_pos rfl, isNearest_of_holds hfound, Option.some.injEq]
      exact eq_comm
    | false =>
      rw [if_neg Bool.false_ne_true]
      cases hrepository : holds tree (workspace.location path) repositoryName with
      | true => simpa using not_isNearest_of_repository hfound hrepository
      | false =>
        rw [if_neg Bool.false_ne_true]
        by_cases hsame : directory = workspace.location path
        · have hnot : ¬ holds tree directory fileName = true := by rw [hsame, hfound]; simp
          exact iff_of_false (fun h => hnot (mem_of_firstIn? h).2) fun h => hnot h.found
        · rw [hlocation] at habove hsame hfound hrepository ⊢
          rw [isNearest_concat hfound hrepository]
          exact ih (by have := hstep.shorter; omega) hbehind' (Workspace.origin_congr hstep.isAbsolute_eq ▸ hbase)
            ((List.prefix_concat_iff.mp habove).resolve_left hsame)

/-! ## The search by paths -/

theorem foundIn?_eq_firstIn? (sound : workspace.isSound = true)
    (hpath : workspace.isDirectory path = true)
    (room : Path.fits (Path.join path fileName) = true) :
    foundIn? workspace path =
      firstIn? workspace.tree ((Path.withParents path).map workspace.location) := by
  have hopens := Workspace.opens_of_isDirectory hpath
  refine findIn?_places sound (Path.forall_mem_climb (fun inner outer hstep h => ?_) ⟨hopens, room⟩)
  exact ⟨h.1.of_isOuter hstep, fits_join_of_isOuter hstep h.2⟩

/-- Without a way up in its path, a directory is searched together with those above it, as far as the
place that the path starts from. -/
theorem location_of_mem_withParents (hclimbs : Path.climbs path = false) :
    ∀ place ∈ Path.withParents path, workspace.origin path <+: workspace.location place ∧
      workspace.location place <+: workspace.location path := by
  intro place hin
  have hplace := Path.isAbsolute_of_mem_climb place hin
  have hfront := Path.behind_of_mem_climb place hin
  rw [Path.behind_of_not_climbs hclimbs] at hfront
  obtain ⟨rest, hrest⟩ := hfront
  obtain ⟨names, more, hnames, hbehind, -⟩ := List.append_eq_map_iff.mp hrest
  rw [Workspace.location_eq, Workspace.location_eq, Path.behind_of_not_climbs hclimbs, ← hbehind, hnames,
    Workspace.foldl_place_names, Workspace.foldl_place_names, ← List.append_assoc,
    Workspace.origin_congr hplace]
  exact ⟨List.prefix_append _ _, List.prefix_append _ _⟩

theorem foundIn?_iff_of_namesAtEnd (sound : workspace.isSound = true)
    (hpath : workspace.isDirectory path = true)
    (room : Path.fits (Path.join path fileName) = true)
    (habove : directory <+: workspace.location path)
    (hends : (workspace.location path).length ≤ directory.length + Path.namesAtEnd path) :
    foundIn? workspace path = some directory ↔
      IsNearest workspace.tree (workspace.location path) directory := by
  obtain ⟨outer, names, hbehind, hlength⟩ := Path.exists_behind_eq path
  have hlocation : workspace.location path =
      outer.foldl Path.Component.place (workspace.origin path) ++ names := by
    rw [Workspace.location_eq, hbehind, List.foldl_append, Workspace.foldl_place_names]
  rw [foundIn?_eq_firstIn? sound hpath room]
  refine firstIn?_climb le_rfl hbehind ?_ habove
  refine List.prefix_of_prefix_length_le (hlocation ▸ List.prefix_append _ _) habove ?_
  rw [hlocation, List.length_append] at hends
  omega

theorem foundIn?_iff_of_not_climbs (sound : workspace.isSound = true)
    (hpath : workspace.isDirectory path = true)
    (room : Path.fits (Path.join path fileName) = true) (hclimbs : Path.climbs path = false) :
    foundIn? workspace path = some directory ↔ workspace.origin path <+: directory ∧
      IsNearest workspace.tree (workspace.location path) directory := by
  have hnearest (hbase : workspace.origin path <+: directory)
      (habove : directory <+: workspace.location path) :
      foundIn? workspace path = some directory ↔
        IsNearest workspace.tree (workspace.location path) directory := by
    rw [foundIn?_eq_firstIn? sound hpath room]
    have hbehind : Path.behind path = [] ++ (Path.names path).map .name :=
      Path.behind_of_not_climbs hclimbs
    exact firstIn?_climb le_rfl hbehind hbase habove
  constructor
  · intro h
    have hin := h
    rw [foundIn?_eq_firstIn? sound hpath room] at hin
    obtain ⟨place, hplace, rfl⟩ := List.mem_map.mp (mem_of_firstIn? hin).1
    obtain ⟨hbase, habove⟩ := location_of_mem_withParents hclimbs place hplace
    exact ⟨hbase, (hnearest hbase habove).mp h⟩
  · rintro ⟨hbase, h⟩
    exact (hnearest hbase h.above).mpr h

/-- As far as a path ends in names, the nearest directory decides where the configuration is found. A
path without ways up is all names: then no other directory is looked into than the one it leads to and
those above it, and the path says nothing more. An absolute path is searched up to the top; a relative
one leaves out what lies above the directory that paths start from. -/
theorem foundIn?_eq_some_iff (sound : workspace.isSound = true)
    (hpath : workspace.isDirectory path = true)
    (room : Path.fits (Path.join path fileName) = true) :
    (∀ directory, directory <+: workspace.location path →
      (workspace.location path).length ≤ directory.length + Path.namesAtEnd path →
        (foundIn? workspace path = some directory ↔
          IsNearest workspace.tree (workspace.location path) directory)) ∧
    (Path.climbs path = false →
      (∀ place ∈ Path.withParents path, workspace.location place <+: workspace.location path) ∧
      (Path.isAbsolute path = true → ∀ directory, foundIn? workspace path = some directory ↔
        IsNearest workspace.tree (workspace.location path) directory) ∧
      (Path.isAbsolute path = false → ∀ directory, foundIn? workspace path = some directory ↔
        workspace.current <+: directory ∧
          IsNearest workspace.tree (workspace.location path) directory) ∧
      ∀ other, workspace.isDirectory other = true → Path.fits (Path.join other fileName) = true →
        Path.climbs other = false → Path.isAbsolute other = Path.isAbsolute path →
          workspace.location other = workspace.location path →
            foundIn? workspace other = foundIn? workspace path) := by
  refine ⟨fun directory => foundIn?_iff_of_namesAtEnd sound hpath room, fun hclimbs => ⟨?_, ?_, ?_, ?_⟩⟩
  · exact fun place hin => (location_of_mem_withParents hclimbs place hin).2
  · intro habsolute directory
    rw [foundIn?_iff_of_not_climbs sound hpath room hclimbs, Workspace.origin, if_pos habsolute]
    exact and_iff_right List.nil_prefix
  · intro hrelative directory
    rw [foundIn?_iff_of_not_climbs sound hpath room hclimbs, Workspace.origin, if_neg (by simp [hrelative])]
  · intro other hother room' hclimbs' habsolute hsame
    refine Option.ext fun directory => ?_
    rw [foundIn?_iff_of_not_climbs sound hother room' hclimbs', hsame,
      foundIn?_iff_of_not_climbs sound hpath room hclimbs, Workspace.origin_congr habsolute]

/-- The configuration of `app` is that of `app/www`, with a way up in the path and without, and also if
`app` lies above the directory that paths start from, but the path is absolute. -/
theorem foundIn?_eq_some_iff_of_parent :
    let www : FileTree := .directory "pages" .empty .empty
    let tree : FileTree := .directory "app" (.file ".locscanrc.json" (some "{}")
      (.directory "css" .empty (.directory "www" www .empty))) .empty
    let workspace : Workspace := ⟨tree, []⟩
    let inner : Workspace := ⟨tree, ["app", "www"]⟩
    foundIn? workspace "app/css/../www" = some (["app"] : List Text) ∧
      IsNearest tree ["app", "www"] ["app"] ∧
      foundIn? workspace "app//www/." = foundIn? workspace "app/www" ∧
      foundIn? inner "/app/www" = some (["app"] : List Text) := by
  intro www tree workspace inner
  have hfound : foundIn? workspace "app/css/../www" = some (["app"] : List Text) := by decide
  have sound : workspace.isSound = true := by decide
  have sound' : inner.isSound = true := by decide
  have hclimbing : workspace.isDirectory "app/css/../www" = true := by decide
  have hpath : workspace.isDirectory "app/www" = true := by decide
  have hpath' : inner.isDirectory "/app/www" = true := by decide
  have h := foundIn?_eq_some_iff sound hclimbing (by decide)
  have h' := foundIn?_eq_some_iff sound hpath (by decide)
  have habsolute := foundIn?_eq_some_iff sound' hpath' (by decide)
  have hnearest := (h.1 ["app"] (by decide) (by decide)).mp hfound
  exact ⟨hfound, hnearest,
    (h'.2 (by decide)).2.2.2 "app//www/." (by decide) (by decide) (by decide) (by decide) (by decide),
    ((habsolute.2 (by decide)).2.1 (by decide) ["app"]).mpr hnearest⟩

/-! What lies above the directory that paths start from is not looked into, unless the path is absolute;
and what a way up leads away from is. -/

example :
    let file := FileTree.file ".locscanrc.json" (some "{}")
    let inner : Workspace := ⟨file (.directory "www" .empty .empty), ["www"]⟩
    foundIn? inner "." = none ∧ foundIn? inner "/www" = some ([] : List Text) ∧
      foundIn? ⟨.directory "www" (file .empty) .empty, []⟩ "www/.." = some (["www"] : List Text) := by
  decide

end

end Config

end Phrasebook
