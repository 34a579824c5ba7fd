import Phrasebook.Proofs.Glob.Pattern
import Phrasebook.Proofs.Workspace

/-!
# One step of a search

A step leads from a directory down some names, and the hits that it gives are those that it leads to.
The path of a hit says no more than that: behind the path of the directory come the names, wherever the
search has set out.
-/

namespace Phrasebook.Glob

open FileTree (Entry)

/-! ## The paths of hits -/

section

variable {workspace : Workspace} {path name : Text} {segments : List Text} {trail next : Trail}

theorem pathOf_nil (hslash : '/' ∉ name) : pathOf [] name = name := by
  rw [pathOf, if_neg (by decide), Path.nil_join (Path.isAbsolute_of_not_mem hslash)]

theorem behind_segment (hslash : '/' ∉ name) :
    Path.behind name = (Path.component? false name).toList := by
  rw [Path.behind, Path.segments_of_not_mem hslash]
  cases h : Path.component? false name <;> simp [h]

theorem behind_pathOf (path : Text) (hslash : '/' ∉ name) :
    Path.behind (pathOf path name) =
      Path.behind path ++ (Path.component? false name).toList := by
  by_cases hne : path = []
  · rw [hne, pathOf_nil hslash, behind_segment hslash]
    rfl
  unfold pathOf
  split
  · rename_i hcurrent
    rw [behind_segment hslash, Path.behind_of_isCurrent hcurrent, List.nil_append]
  · rw [Path.behind_join hne (Path.isAbsolute_of_not_mem hslash), behind_segment hslash]

/-- The path of a hit starts where the search has started. -/
theorem isAbsolute_pathOf (path : Text) (hslash : '/' ∉ name) :
    Path.isAbsolute (pathOf path name) = Path.isAbsolute path := by
  have hrelative := Path.isAbsolute_of_not_mem hslash
  by_cases hne : path = []
  · rw [hne, pathOf_nil hslash, hrelative]
    rfl
  unfold pathOf
  split
  · rename_i hcurrent
    rw [hrelative, Path.isAbsolute_of_isCurrent hcurrent]
  · exact Path.isAbsolute_join hne hrelative

theorem behind_foldl_pathOf (path : Text) (hslash : ∀ segment ∈ segments, '/' ∉ segment) :
    Path.behind (segments.foldl pathOf path) =
      Path.behind path ++ segments.filterMap (Path.component? false) := by
  induction segments generalizing path with
  | nil => simp
  | cons segment segments ih =>
    rw [List.forall_mem_cons] at hslash
    rw [List.foldl_cons, ih _ hslash.2, behind_pathOf path hslash.1, List.append_assoc,
      List.filterMap_cons]
    cases Path.component? false segment <;> rfl

theorem isAbsolute_foldl_pathOf (path : Text) (hslash : ∀ segment ∈ segments, '/' ∉ segment) :
    Path.isAbsolute (segments.foldl pathOf path) = Path.isAbsolute path := by
  induction segments generalizing path with
  | nil => rfl
  | cons segment segments ih =>
    rw [List.forall_mem_cons] at hslash
    rw [List.foldl_cons, ih _ hslash.2, isAbsolute_pathOf path hslash.1]

/-- Only what is the current directory is shown with a dot in front. -/
theorem isCurrent_pathOf (hne : path ≠ []) (hslash : '/' ∉ name)
    (h : Path.isDotted path = true → Path.isCurrent path = true) :
    Path.isDotted (pathOf path name) = true → Path.isCurrent (pathOf path name) = true := by
  unfold pathOf
  split
  · exact Path.isCurrent_of_isDotted_segment hslash
  · rename_i hcurrent
    rw [Path.isDotted_join hne (Path.isAbsolute_of_not_mem hslash)]
    exact fun hdotted => absurd (h hdotted) hcurrent

/-- What is not the current directory has a path of its own, and so has all behind it. -/
theorem pathOf_ne_nil (hne : path ≠ []) (h : Path.isCurrent path = false) (hslash : '/' ∉ name) :
    pathOf path name ≠ [] ∧ Path.isCurrent (pathOf path name) = false := by
  have hrelative := Path.isAbsolute_of_not_mem hslash
  rw [pathOf, if_neg (by simp [h])]
  exact ⟨Path.join_ne_nil hne _, Path.isCurrent_join hne h hrelative⟩

theorem isCurrent_foldl_pathOf (hne : path ≠ []) (h : Path.isCurrent path = false)
    (hslash : ∀ segment ∈ segments, '/' ∉ segment) :
    Path.isCurrent (segments.foldl pathOf path) = false := by
  induction segments generalizing path with
  | nil => exact h
  | cons segment segments ih =>
    rw [List.forall_mem_cons] at hslash
    obtain ⟨hnext, hcurrent⟩ := pathOf_ne_nil hne h hslash.1
    exact ih hnext hcurrent hslash.2

theorem foldlM_singleton (trail : Trail) (name : Text) :
    [name].foldlM Trail.enter trail = trail.enter name := by
  rw [List.foldlM_cons]
  exact bind_pure _

theorem trail_pathOf (h : workspace.Follows path trail) (hslash : '/' ∉ name) :
    workspace.trail (pathOf path name) = trail.enter name := by
  have hsegments := Path.segments_of_not_mem hslash
  unfold pathOf
  split
  · rename_i hcurrent
    obtain ⟨here, hstart, hreached⟩ := Workspace.trail_eq_ok_iff.mp h.reached
    have hfillers := Path.isFiller_of_behind_eq_nil (Path.behind_of_isCurrent hcurrent)
    have hstart' : workspace.start name = .ok here := by
      rw [Workspace.start_congr ((Path.isAbsolute_of_not_mem hslash).trans
        (Path.isAbsolute_of_isCurrent hcurrent).symm), hstart]
    rw [Trail.eq_of_foldlM_fillers hfillers hreached, Workspace.trail, hstart', hsegments]
    exact foldlM_singleton here name
  · rw [h.trail_join (Path.isAbsolute_of_not_mem hslash), hsegments, foldlM_singleton]

theorem follows_pathOf (h : workspace.Follows path trail)
    (hname : name ≠ [] ∨ Path.isCurrent path = false) (hslash : '/' ∉ name) (hnull : '\x00' ∉ name)
    (hnext : trail.enter name = .ok next) : workspace.Follows (pathOf path name) next := by
  have hrelative := Path.isAbsolute_of_not_mem hslash
  have hreached := (trail_pathOf h hslash).trans hnext
  unfold pathOf at hreached ⊢
  split at hreached
  · rename_i hcurrent
    rw [if_pos hcurrent]
    exact ⟨hname.resolve_right (by simp [hcurrent]), hnull, hreached⟩
  · rename_i hcurrent
    rw [if_neg hcurrent]
    refine h.join hrelative hnull ?_
    rw [Path.segments_of_not_mem hslash, foldlM_singleton, hnext]

theorem byteLength_pathOf_le (path name : Text) :
    Text.byteLength (pathOf path name) ≤ Text.byteLength path + (Text.byteLength name + 1) := by
  unfold pathOf
  split
  · omega
  · have hjoin := Path.byteLength_join_le path name
    omega

theorem byteLength_foldl_pathOf_le (path : Text) (names : List Text) :
    Text.byteLength (names.foldl pathOf path) ≤
      Text.byteLength path + (names.map fun name => Text.byteLength name + 1).sum := by
  induction names generalizing path with
  | nil => simp
  | cons name names ih =>
    have hfirst := byteLength_pathOf_le path name
    have hlater := ih (pathOf path name)
    rw [List.foldl_cons, List.map_cons, List.sum_cons]
    omega

end

/-! ## Where a step leads -/

/-- From a directory a step leads along some segments to an entry. -/
inductive Step.Leads (tree : FileTree) : Step → List Text → Entry → Prop where
  | stay {segment : Text} (filler : Path.isFiller segment = true) :
    Leads tree (.literal segment) [segment] (.directory tree)
  | literal {segment : Text} {entry : Entry} (found : tree.find? segment = some entry) :
    Leads tree (.literal segment) [segment] entry
  | entry {pattern : Pattern} {name : Text} {entry : Entry} (found : tree.find? name = some entry)
    (fits : isMatch pattern name = true) : Leads tree (.entries pattern) [name] entry
  | below {pattern : Pattern} {outer : List Text} {name : Text} {entry : Entry}
    (found : tree.entryAt? (outer ++ [name]) = some entry) (fits : isMatch pattern name = true) :
    Leads tree (.entriesBelow pattern) (outer ++ [name]) entry
  | directory {names : List Text} {entry : Entry} (down : names ≠ [])
    (found : tree.entryAt? names = some entry) (isDirectory : entry.isDirectory = true) :
    Leads tree .directoriesBelow names entry

/-- What a path passes on its way down: a name, or a segment that says nothing. -/
def isPassed (segment : Text) : Bool := Path.isFiller segment || Path.isName segment

theorem not_mem_of_isPassed {segment : Text} (h : isPassed segment = true) : '/' ∉ segment := by
  rcases Bool.or_eq_true_iff.mp h with h | h
  · exact Path.not_mem_of_isFiller h (by decide)
  · exact (Path.isName_iff.mp h).2.2.1

theorem ne_up_of_isPassed {segment : Text} (h : isPassed segment = true) : segment ≠ ".." := by
  rintro rfl
  exact absurd h (by decide)

theorem Step.Leads.isPassed {tree : FileTree} {step : Step} {segments : List Text} {entry : Entry}
    (sound : tree.isSound = true) (h : step.Leads tree segments entry) :
    ∀ segment ∈ segments, isPassed segment = true := by
  have hname {names : List Text} {entry : Entry} (hat : tree.entryAt? names = some entry) :
      ∀ name ∈ names, Glob.isPassed name = true :=
    fun name hin => Bool.or_eq_true_iff.mpr (Or.inr (FileTree.isName_of_entryAt? sound hat name hin))
  cases h with
  | stay filler =>
    intro segment hin
    rw [List.mem_singleton.mp hin]
    exact Bool.or_eq_true_iff.mpr (Or.inl filler)
  | literal found => exact hname ((FileTree.entryAt?_singleton tree _).trans found)
  | entry found => exact hname ((FileTree.entryAt?_singleton tree _).trans found)
  | below found => exact hname found
  | directory _ found => exact hname found

theorem Step.Leads.isSound {tree inner : FileTree} {step : Step} {segments : List Text}
    (sound : tree.isSound = true) (h : step.Leads tree segments (.directory inner)) :
    inner.isSound = true := by
  cases h with
  | stay => exact sound
  | literal found => exact FileTree.isSound_of_find? sound found
  | entry found => exact FileTree.isSound_of_find? sound found
  | below found => exact FileTree.isSound_of_entryAt? sound found
  | directory _ found => exact FileTree.isSound_of_entryAt? sound found

/-- Whether a step looks a name up. -/
def Step.isLiteral : Step → Bool
  | .literal _ => true
  | _ => false

/-- Whether a pattern takes the dot entries of a directory along. -/
def takesDots (pattern : Pattern) : Bool :=
  pattern.head? = some (.char '.') && (isMatch pattern "." || isMatch pattern "..")

/-- Whether a step leads nowhere but down. -/
def Step.descends : Step → Bool
  | .literal segment => segment ≠ ".." && !segment.contains '/'
  | .entries pattern => !takesDots pattern
  | .entriesBelow _ | .directoriesBelow => true

/-! ## Listings -/

section

variable {accepts : Text → Entry → Bool} {path : Text} {tree : FileTree} {hit : Hit}

theorem mem_children_iff : hit ∈ children accepts path tree ↔
    ∃ row ∈ tree.rows, accepts row.1 row.2 = true ∧ hit = ⟨pathOf path row.1, row.2, 1⟩ := by
  induction tree with
  | empty => simp [children, FileTree.rows]
  | file name content others ih =>
    rw [children, FileTree.rows, List.exists_mem_cons_iff]
    split
    · rename_i htakes
      rw [List.mem_cons, ih]
      simp [htakes]
    · rename_i hleaves
      rw [ih]
      simp [hleaves]
  | directory name entries others _ ih =>
    rw [children, FileTree.rows, List.exists_mem_cons_iff]
    split
    · rename_i htakes
      rw [List.mem_cons, ih]
      simp [htakes]
    · rename_i hleaves
      rw [ih]
      simp [hleaves]

theorem mem_below_file_iff {name : Text} {content : Option Text} {others : FileTree} :
    hit ∈ below accepts path (.file name content others) ↔
      (accepts name (.file content) = true ∧ hit = ⟨pathOf path name, .file content, 1⟩) ∨
        hit ∈ below accepts path others := by
  rw [below]
  split <;> simp_all

theorem mem_below_directory_iff {name : Text} {entries others : FileTree} :
    hit ∈ below accepts path (.directory name entries others) ↔
      (accepts name (.directory entries) = true ∧ hit = ⟨pathOf path name, .directory entries, 1⟩) ∨
        hit ∈ below accepts (pathOf path name) entries ∨ hit ∈ below accepts path others := by
  rw [below]
  split <;> simp_all

theorem exists_of_mem_below (sound : tree.isSound = true) (h : hit ∈ below accepts path tree) :
    ∃ outer name entry, tree.entryAt? (outer ++ [name]) = some entry ∧ accepts name entry = true ∧
      hit = ⟨(outer ++ [name]).foldl pathOf path, entry, 1⟩ := by
  induction tree generalizing path with
  | empty => cases h
  | file n content others ih =>
    have hothers : others.isSound = true := (Bool.and_eq_true_iff.mp sound).2
    rcases mem_below_file_iff.mp h with ⟨haccepts, rfl⟩ | h
    · exact ⟨[], n, .file content, by simp [FileTree.entryAt?, FileTree.find?], haccepts, rfl⟩
    · obtain ⟨outer, name, entry, hentry, hhit⟩ := ih hothers h
      exact ⟨outer, name, entry, FileTree.entryAt?_of_rows sound hothers (List.subset_cons_self _ _)
        (by simp) hentry, hhit⟩
  | directory n inner others ihInner ih =>
    have hothers : others.isSound = true := (Bool.and_eq_true_iff.mp sound).2
    have hfind : (FileTree.directory n inner others).find? n = some (.directory inner) := by
      simp [FileTree.find?]
    rcases mem_below_directory_iff.mp h with ⟨haccepts, rfl⟩ | h | h
    · exact ⟨[], n, .directory inner, by simp [FileTree.entryAt?, FileTree.find?], haccepts, rfl⟩
    · obtain ⟨outer, name, entry, hentry, hhit⟩ := ihInner (FileTree.isSound_of_find? sound hfind) h
      exact ⟨n :: outer, name, entry, FileTree.entryAt?_cons_iff.mpr (Or.inr ⟨inner, hfind, hentry⟩),
        hhit⟩
    · obtain ⟨outer, name, entry, hentry, hhit⟩ := ih hothers h
      exact ⟨outer, name, entry, FileTree.entryAt?_of_rows sound hothers (List.subset_cons_self _ _)
        (by simp) hentry, hhit⟩

theorem below_subset_of_mem_rows {name : Text} {entries : FileTree}
    (h : (name, .directory entries) ∈ tree.rows) :
    below accepts (pathOf path name) entries ⊆ below accepts path tree := by
  intro hit hin
  induction tree with
  | empty => cases h
  | file n content others ih =>
    rcases List.mem_cons.mp h with h | h
    · cases h
    · exact mem_below_file_iff.mpr (Or.inr (ih h))
  | directory n inner others _ ih =>
    rcases List.mem_cons.mp h with h | h
    · cases h
      exact mem_below_directory_iff.mpr (Or.inr (Or.inl hin))
    · exact mem_below_directory_iff.mpr (Or.inr (Or.inr (ih h)))

theorem mem_below_of_mem_rows {row : Text × Entry} (h : row ∈ tree.rows)
    (haccepts : accepts row.1 row.2 = true) :
    ⟨pathOf path row.1, row.2, 1⟩ ∈ below accepts path tree := by
  induction tree with
  | empty => cases h
  | file n content others ih =>
    rcases List.mem_cons.mp h with rfl | h
    · exact mem_below_file_iff.mpr (Or.inl ⟨haccepts, rfl⟩)
    · exact mem_below_file_iff.mpr (Or.inr (ih h))
  | directory n inner others _ ih =>
    rcases List.mem_cons.mp h with rfl | h
    · exact mem_below_directory_iff.mpr (Or.inl ⟨haccepts, rfl⟩)
    · exact mem_below_directory_iff.mpr (Or.inr (Or.inr (ih h)))

theorem mem_below_of_entryAt? {outer : List Text} {name : Text} {entry : Entry}
    (h : tree.entryAt? (outer ++ [name]) = some entry) (haccepts : accepts name entry = true) :
    ⟨(outer ++ [name]).foldl pathOf path, entry, 1⟩ ∈ below accepts path tree := by
  induction outer generalizing path tree with
  | nil =>
    rw [List.nil_append, FileTree.entryAt?_singleton] at h
    exact mem_below_of_mem_rows (FileTree.mem_rows_of_find? h) haccepts
  | cons first outer ih =>
    rcases FileTree.entryAt?_cons_iff.mp h with ⟨hnil, -⟩ | ⟨inner, hfind, hinner⟩
    · simp at hnil
    · exact below_subset_of_mem_rows (FileTree.mem_rows_of_find? hfind) (ih hinner)

/-- What is listed at any depth is what is there. -/
theorem mem_below_iff (sound : tree.isSound = true) : hit ∈ below accepts path tree ↔
    ∃ outer name entry, tree.entryAt? (outer ++ [name]) = some entry ∧ accepts name entry = true ∧
      hit = ⟨(outer ++ [name]).foldl pathOf path, entry, 1⟩ := by
  refine ⟨exists_of_mem_below sound, ?_⟩
  rintro ⟨outer, name, entry, h, haccepts, rfl⟩
  exact mem_below_of_entryAt? h haccepts

end

/-! ## What hits stand for -/

/-- The path shows the entry, and with a dot in front only if it is the current directory. -/
structure Shows (workspace : Workspace) (path : Text) (entry : Entry) : Prop where
  reached : ∃ trail, workspace.Follows path trail ∧ trail.entry = entry
  current : Path.isDotted path = true → Path.isCurrent path = true

section

variable {workspace : Workspace} {path name segment : Text} {names : List Text} {entry other : Entry}
  {tree : FileTree} {hit next : Hit} {step : Step}

theorem Shows.unique (h : Shows workspace path entry) (h' : Shows workspace path other) :
    entry = other := by
  obtain ⟨trail, hfollows, rfl⟩ := h.reached
  obtain ⟨trail', hfollows', rfl⟩ := h'.reached
  rw [Except.ok.inj (hfollows.reached.symm.trans hfollows'.reached)]

theorem Shows.entry_eq (h : Shows workspace path entry) (hfits : Path.fits path = true) :
    workspace.entry path = .ok entry :=
  Workspace.entry_eq_ok_iff.mpr ⟨hfits, h.reached⟩

theorem Shows.isSound (h : Shows workspace path (.directory tree)) (sound : workspace.isSound = true) :
    tree.isSound = true := by
  obtain ⟨trail, hfollows, hentry⟩ := h.reached
  have hat := (hfollows.isAt sound).entryAt?
  rw [hentry] at hat
  simp only [Workspace.isSound, Bool.and_eq_true] at sound
  exact FileTree.isSound_of_entryAt? sound.1 hat

theorem Shows.child (h : Shows workspace path (.directory tree)) (hname : Path.isName name = true)
    (hfind : tree.find? name = some entry) : Shows workspace (pathOf path name) entry := by
  obtain ⟨trail, hfollows, hentry⟩ := h.reached
  obtain ⟨hfiller, -, hslash, hnull, -⟩ := Path.isName_iff.mp hname
  have hne : name ≠ [] := by
    rintro rfl
    simp [Path.isFiller] at hfiller
  exact ⟨⟨_, follows_pathOf hfollows (Or.inl hne) hslash hnull (Trail.enter_name hentry hname hfind), rfl⟩,
    isCurrent_pathOf hfollows.ne_nil hslash h.current⟩

theorem Shows.ne_nil (h : Shows workspace path entry) : path ≠ [] := by
  obtain ⟨trail, hfollows, -⟩ := h.reached
  exact hfollows.ne_nil

/-- What is in a directory is shown by the path of the directory and the names. -/
theorem Shows.foldl (sound : tree.isSound = true) (h : Shows workspace path (.directory tree))
    (hentry : tree.entryAt? names = some entry) : Shows workspace (names.foldl pathOf path) entry := by
  induction names generalizing path tree with
  | nil =>
    cases hentry
    exact h
  | cons name names ih =>
    rcases FileTree.entryAt?_cons_iff.mp hentry with ⟨rfl, hfind⟩ | ⟨inner, hfind, hinner⟩
    · exact h.child (FileTree.isName_of_find? sound hfind) hfind
    · exact ih (FileTree.isSound_of_find? sound hfind)
        (h.child (FileTree.isName_of_find? sound hfind) hfind) hinner

theorem mem_hitsAt_iff : hit ∈ hitsAt workspace path ↔
    workspace.entry path = .ok hit.entry ∧ hit.path = path ∧ hit.ways = 1 := by
  obtain ⟨path', entry, ways⟩ := hit
  unfold hitsAt
  split
  · rename_i heq
    simp [heq, eq_comm]
    tauto
  · rename_i heq
    simp [heq]

theorem exists_of_mem_literal (h : Shows workspace hit.path hit.entry) (hslash : '/' ∉ segment)
    (hin : next ∈ (Step.literal segment).take workspace hit) :
    Shows workspace next.path next.entry ∧ next.path = pathOf hit.path segment ∧
      ∃ trail following : Trail, trail.entry = hit.entry ∧ following.entry = next.entry ∧
        trail.enter segment = .ok following := by
  obtain ⟨hentry, hpath, -⟩ := mem_hitsAt_iff.mp hin
  obtain ⟨-, following, hnext, hthere⟩ := Workspace.entry_eq_ok_iff.mp hentry
  obtain ⟨trail, hfollows, hhere⟩ := h.reached
  have hcurrent := isCurrent_pathOf h.ne_nil hslash h.current
  have henter := (trail_pathOf hfollows hslash).symm.trans hnext.reached
  rw [hpath]
  exact ⟨⟨⟨following, hnext, hthere⟩, hcurrent⟩, rfl, trail, following, hhere, hthere, henter⟩

theorem dots_of_takesDots {pattern : Pattern} (h : takesDots pattern = false) :
    dots workspace pattern path = [] := by
  unfold dots
  split
  · rename_i hdot
    unfold takesDots at h
    rw [hdot, decide_eq_true rfl, Bool.true_and, Bool.or_eq_false_iff] at h
    rw [List.filter_cons_of_neg (by rw [h.1]; decide), List.filter_cons_of_neg (by rw [h.2]; decide)]
    rfl
  · rfl

theorem Shows.exists_of_mem_inside {list : Text → FileTree → List Hit} (sound : workspace.isSound = true)
    (h : Shows workspace hit.path hit.entry) (hin : next ∈ hit.inside list) :
    ∃ tree, hit.entry = .directory tree ∧ tree.isSound = true ∧
      Shows workspace hit.path (.directory tree) ∧ next ∈ list hit.path tree := by
  unfold Hit.inside at hin
  split at hin
  · cases hin
  · rename_i tree hdir
    rw [hdir] at h
    exact ⟨tree, hdir, h.isSound sound, h, hin⟩

/-- A step that descends leads a hit along some segments, which its path shows. -/
theorem exists_of_mem_take (sound : workspace.isSound = true) (hdescends : step.descends = true)
    (h : Shows workspace hit.path hit.entry) (hin : next ∈ step.take workspace hit) :
    Shows workspace next.path next.entry ∧ ∃ tree segments, hit.entry = .directory tree ∧
      tree.isSound = true ∧ step.Leads tree segments next.entry ∧
      next.path = segments.foldl pathOf hit.path := by
  cases step with
  | literal segment =>
    simp only [Step.descends, Bool.and_eq_true, decide_eq_true_eq, Bool.not_eq_true',
      List.contains_eq_mem, decide_eq_false_iff_not] at hdescends
    obtain ⟨hshows, hpath, trail, following, hhere, hthere, henter⟩ :=
      exists_of_mem_literal h hdescends.2 hin
    obtain ⟨tree, hdir, hcases⟩ := Trail.enter_cases henter
    rw [hhere] at hdir
    have htree : tree.isSound = true := (hdir ▸ h).isSound sound
    refine ⟨hshows, tree, [segment], hdir, htree, ?_, hpath⟩
    rw [← hthere]
    obtain ⟨hfiller, rfl⟩ | ⟨hup, -⟩ | ⟨-, -, entry, hfind, rfl⟩ := hcases
    · rw [hhere, hdir]
      exact .stay hfiller
    · exact absurd hup hdescends.1
    · exact .literal hfind
  | entries pattern =>
    rw [Step.take] at hin
    obtain ⟨tree, hdir, htree, h, hin⟩ := h.exists_of_mem_inside sound hin
    rw [dots_of_takesDots (by simpa [Step.descends] using hdescends), List.nil_append,
      mem_children_iff] at hin
    obtain ⟨⟨name, entry⟩, hrow, hmatch, rfl⟩ := hin
    have hfind := (FileTree.mem_rows_iff htree).mp hrow
    have hshows := h.foldl htree ((FileTree.entryAt?_singleton tree name).trans hfind)
    exact ⟨hshows, tree, [name], hdir, htree, .entry hfind hmatch, rfl⟩
  | entriesBelow pattern =>
    rw [Step.take] at hin
    obtain ⟨tree, hdir, htree, h, hin⟩ := h.exists_of_mem_inside sound hin
    obtain ⟨outer, name, entry, hat, hmatch, rfl⟩ := (mem_below_iff htree).mp hin
    exact ⟨h.foldl htree hat, tree, outer ++ [name], hdir, htree, .below hat hmatch, rfl⟩
  | directoriesBelow =>
    rw [Step.take] at hin
    obtain ⟨tree, hdir, htree, h, hin⟩ := h.exists_of_mem_inside sound hin
    obtain ⟨outer, name, entry, hat, hdirectory, rfl⟩ := (mem_below_iff htree).mp hin
    exact ⟨h.foldl htree hat, tree, outer ++ [name], hdir, htree, .directory (by simp) hat hdirectory,
      rfl⟩

/-! ## Completeness of a step -/

/-- The number of bytes that a step can add to a path without leading down. -/
def Step.padding : Step → Nat
  | .literal segment => Text.byteLength segment + 1
  | _ => 0

theorem Shows.filler (h : Shows workspace path (.directory tree))
    (hgap : segment ≠ [] ∨ Path.isCurrent path = false) (hfiller : Path.isFiller segment = true) :
    Shows workspace (pathOf path segment) (.directory tree) := by
  obtain ⟨trail, hfollows, hentry⟩ := h.reached
  have hslash : '/' ∉ segment := Path.not_mem_of_isFiller hfiller (by decide)
  have hnull : '\x00' ∉ segment := Path.not_mem_of_isFiller hfiller (by decide)
  exact ⟨⟨trail, follows_pathOf hfollows hgap hslash hnull
    (Trail.enter_filler hentry hfiller), hentry⟩, isCurrent_pathOf hfollows.ne_nil hslash h.current⟩

theorem byteLength_foldl_pathOf_add_span_le (path : Text) (hentry : tree.entryAt? names = some entry) :
    Text.byteLength (names.foldl pathOf path) + entry.span ≤ Text.byteLength path + tree.span := by
  have hpath := byteLength_foldl_pathOf_le path names
  have hspan := FileTree.span_of_entryAt? hentry
  omega

/-- To where a step leads there is a hit, if there is room for its path. Only an empty segment leads
nowhere from the current directory, which is not shown. -/
theorem mem_take_of_leads (sound : workspace.isSound = true)
    (h : Shows workspace hit.path (.directory tree)) (hdir : hit.entry = .directory tree)
    (hgap : Path.isCurrent hit.path = false ∨ step ≠ .literal []) (leads : step.Leads tree names entry)
    (room : Text.byteLength hit.path + tree.span + step.padding ≤ Path.maxBytes) :
    ⟨names.foldl pathOf hit.path, entry, 1⟩ ∈ step.take workspace hit ∧
      Text.byteLength (names.foldl pathOf hit.path) + entry.span ≤
        Text.byteLength hit.path + tree.span + step.padding := by
  have htree := h.isSound sound
  have hlength {names : List Text} {entry : Entry} (hat : tree.entryAt? names = some entry) :
      Text.byteLength (names.foldl pathOf hit.path) + entry.span ≤
        Text.byteLength hit.path + tree.span + step.padding :=
    (byteLength_foldl_pathOf_add_span_le _ hat).trans (Nat.le_add_right _ _)
  have hhits {path : Text} {entry : Entry} (hshows : Shows workspace path entry)
      (hlength : Text.byteLength path ≤ Path.maxBytes) : ⟨path, entry, 1⟩ ∈ hitsAt workspace path :=
    mem_hitsAt_iff.mpr ⟨hshows.entry_eq (decide_eq_true hlength), rfl, rfl⟩
  cases leads with
  | @stay segment hfiller =>
    have hname : segment ≠ [] ∨ Path.isCurrent hit.path = false :=
      hgap.symm.imp_left fun h hnil => h (by rw [hnil])
    have hpath := byteLength_pathOf_le hit.path segment
    simp only [Step.padding] at room
    refine ⟨hhits (h.filler hname hfiller) (by omega), ?_⟩
    simp only [Step.padding, Entry.span, List.foldl_cons, List.foldl_nil]
    omega
  | @literal segment _ hfind =>
    have hat := (FileTree.entryAt?_singleton tree _).trans hfind
    have hpath : Text.byteLength (pathOf hit.path segment) + entry.span ≤ _ := hlength hat
    exact ⟨hhits (h.foldl htree hat) (by omega), hpath⟩
  | entry hfind hmatch =>
    refine ⟨?_, hlength ((FileTree.entryAt?_singleton tree _).trans hfind)⟩
    rw [Step.take, Hit.inside, hdir]
    refine List.mem_append_right _ (mem_children_iff.mpr ?_)
    exact ⟨_, FileTree.mem_rows_of_find? hfind, hmatch, rfl⟩
  | below hat hmatch =>
    refine ⟨?_, hlength hat⟩
    rw [Step.take, Hit.inside, hdir]
    exact mem_below_of_entryAt? hat hmatch
  | directory hne hat hdirectory =>
    refine ⟨?_, hlength hat⟩
    obtain ⟨outer, name, rfl⟩ : ∃ outer name, names = outer ++ [name] :=
      ⟨_, _, (List.dropLast_append_getLast hne).symm⟩
    rw [Step.take, Hit.inside, hdir]
    exact mem_below_of_entryAt? hat hdirectory

end

end Phrasebook.Glob
