import Mathlib.Tactic.SplitIfs
import Phrasebook.Proofs.FileTree
import Phrasebook.Proofs.Outcome
import Phrasebook.Workspace

/-!
# Places in a workspace

A path that leads somewhere leads to one place in the tree, given by the names from the top. Many paths
lead to one place; where it is can be read off the components alone.
-/

namespace Phrasebook

/-- Where a component leads to from the place with the given names. -/
def Path.Component.place (here : List Text) : Path.Component → List Text
  | .root => []
  | .current => here
  | .parent => here.dropLast
  | .name text => here ++ [text]

namespace Trail

/-- The trail is what following the given names from the top of a tree leaves behind. -/
inductive IsAt (tree : FileTree) : Trail → List Text → Prop where
  | top : IsAt tree (top tree) []
  | enter {trail : Trail} {here : List Text} {entries : FileTree} {name : Text} {entry : FileTree.Entry}
    (outer : IsAt tree trail here) (directory : trail.entry = .directory entries)
    (found : entries.find? name = some entry) :
    IsAt tree ⟨entry, entries :: trail.around⟩ (here ++ [name])

section

variable {tree : FileTree} {trail next : Trail} {here : List Text} {segment : Text}

theorem IsAt.entryAt? (h : IsAt tree trail here) : tree.entryAt? here = some trail.entry := by
  induction h with
  | top => rfl
  | enter _ directory found ih =>
    rw [directory] at ih
    rw [FileTree.entryAt?_append ih, FileTree.entryAt?_singleton, found]

theorem enter_filler {entries : FileTree} (hdir : trail.entry = .directory entries)
    (hfiller : Path.isFiller segment = true) : trail.enter segment = .ok trail := by
  simp [enter, hdir, hfiller]

/-- A segment leads on from a directory: nowhere, up, or to the entry of its name. -/
theorem enter_cases (h : trail.enter segment = .ok next) :
    ∃ entries, trail.entry = .directory entries ∧
      ((Path.isFiller segment = true ∧ next = trail) ∨
       (segment = ".." ∧ (trail.around = [] ∧ next = trail ∨
          ∃ outer around, trail.around = outer :: around ∧ next = ⟨.directory outer, around⟩)) ∨
       (Path.isFiller segment = false ∧ segment ≠ ".." ∧
          ∃ entry, entries.find? segment = some entry ∧ next = ⟨entry, entries :: trail.around⟩)) := by
  unfold enter at h
  split at h
  · cases h
  rename_i entries hdir
  refine ⟨entries, hdir, ?_⟩
  split_ifs at h with hfiller hup
  · exact Or.inl ⟨hfiller, (Except.ok.inj h).symm⟩
  · right
    left
    refine ⟨hup, ?_⟩
    split at h
    · rename_i haround
      exact Or.inl ⟨haround, (Except.ok.inj h).symm⟩
    · rename_i outer around haround
      exact Or.inr ⟨outer, around, haround, (Except.ok.inj h).symm⟩
  · right
    right
    split at h
    · rename_i entry hfind
      exact ⟨by simpa using hfiller, hup, entry, hfind, (Except.ok.inj h).symm⟩
    · cases h

theorem eq_of_enter_filler (hfiller : Path.isFiller segment = true)
    (h : trail.enter segment = .ok next) : next = trail := by
  obtain ⟨entries, -, ⟨-, hsame⟩ | ⟨rfl, -⟩ | ⟨hnot, -⟩⟩ := enter_cases h
  · exact hsame
  · exact absurd hfiller (by decide)
  · rw [hfiller] at hnot
    cases hnot

theorem eq_of_foldlM_fillers {segments : List Text}
    (hfillers : ∀ segment ∈ segments, Path.isFiller segment = true)
    (h : segments.foldlM enter trail = .ok next) : next = trail := by
  induction segments with
  | nil => exact (Except.ok.inj h).symm
  | cons segment segments ih =>
    obtain ⟨hfiller, hfillers⟩ := List.forall_mem_cons.mp hfillers
    rw [List.foldlM_cons] at h
    obtain ⟨middle, hstep, h⟩ := bind_eq_ok.mp h
    rw [eq_of_enter_filler hfiller hstep] at h
    exact ih hfillers h

/-- What lies around a place does not count, unless a path leads upwards. -/
theorem enter_congr (other : Trail) (h : other.entry = trail.entry) (hup : segment ≠ "..")
    (hnext : trail.enter segment = .ok next) :
    ∃ next', other.enter segment = .ok next' ∧ next'.entry = next.entry := by
  unfold enter at hnext ⊢
  rw [h]
  split at hnext
  · cases hnext
  · rename_i entries hdir
    rw [if_neg hup] at hnext ⊢
    split_ifs at hnext ⊢
    · exact ⟨other, rfl, by rw [h, Except.ok.inj hnext]⟩
    · cases hfind : entries.find? segment with
      | none =>
        rw [hfind] at hnext
        cases hnext
      | some entry =>
        rw [hfind] at hnext
        exact ⟨_, rfl, by rw [← Except.ok.inj hnext]⟩

theorem foldlM_enter_congr {segments : List Text} (other : Trail) (h : other.entry = trail.entry)
    (hup : ∀ segment ∈ segments, segment ≠ "..") (hnext : segments.foldlM enter trail = .ok next) :
    ∃ next', segments.foldlM enter other = .ok next' ∧ next'.entry = next.entry := by
  induction segments generalizing trail other with
  | nil => exact ⟨other, rfl, by rw [h, ← Except.ok.inj hnext]⟩
  | cons segment segments ih =>
    rw [List.forall_mem_cons] at hup
    rw [List.foldlM_cons] at hnext
    obtain ⟨middle, hstep, hnext⟩ := bind_eq_ok.mp hnext
    obtain ⟨middle', hstep', hmiddle⟩ := enter_congr other h hup.1 hstep
    obtain ⟨next', hnext', hentry⟩ := ih middle' hmiddle hup.2 hnext
    refine ⟨next', ?_, hentry⟩
    rw [List.foldlM_cons]
    exact bind_eq_ok.mpr ⟨middle', hstep', hnext'⟩

theorem enter_name {entries : FileTree} {entry : FileTree.Entry}
    (hdir : trail.entry = .directory entries) (hname : Path.isName segment = true)
    (found : entries.find? segment = some entry) :
    trail.enter segment = .ok ⟨entry, entries :: trail.around⟩ := by
  obtain ⟨hfiller, hup, -, -, hfits⟩ := Path.isName_iff.mp hname
  unfold enter
  rw [hdir]
  simp only [hfiller, hfits, found, if_neg hup]
  rfl

/-- From a directory the names of an entry lead to it. -/
theorem exists_foldlM_names {entries : FileTree} {entry : FileTree.Entry} {names : List Text}
    (hdir : trail.entry = .directory entries) (hnames : ∀ name ∈ names, Path.isName name = true)
    (found : entries.entryAt? names = some entry) :
    ∃ next, names.foldlM enter trail = .ok next ∧ next.entry = entry := by
  induction names generalizing trail entries with
  | nil =>
    cases found
    exact ⟨trail, rfl, hdir⟩
  | cons name names ih =>
    obtain ⟨hname, hnames⟩ := List.forall_mem_cons.mp hnames
    rcases FileTree.entryAt?_cons_iff.mp found with ⟨rfl, hfind⟩ | ⟨inner, hfind, hinner⟩
    · refine ⟨⟨entry, entries :: trail.around⟩, ?_, rfl⟩
      rw [List.foldlM_cons, enter_name hdir hname hfind]
      rfl
    · have hinside : (Trail.mk (.directory inner) (entries :: trail.around)).entry = .directory inner := rfl
      obtain ⟨next, hnext, hentry⟩ := ih hinside hnames hinner
      refine ⟨next, ?_, hentry⟩
      rw [List.foldlM_cons, enter_name hdir hname hfind]
      exact hnext

/-- A segment leads to where its component does. -/
theorem IsAt.step (h : IsAt tree trail here) (hnext : trail.enter segment = .ok next) :
    IsAt tree next (((Path.component? false segment).toList).foldl Path.Component.place here) := by
  obtain ⟨entries, hdir, hcases⟩ := enter_cases hnext
  rcases Path.component?_cases segment with ⟨hfiller, heq⟩ | ⟨rfl, heq⟩ | ⟨hfiller, hup, heq⟩
  · rw [heq, eq_of_enter_filler hfiller hnext]
    exact h
  · obtain ⟨hyes, -⟩ | ⟨-, ⟨haround, rfl⟩ | ⟨outer, around, haround, rfl⟩⟩ | ⟨-, hne, -⟩ := hcases
    · exact absurd hyes (by decide)
    · rw [heq]
      cases h with
      | top => exact .top
      | enter => cases haround
    · rw [heq]
      cases h with
      | top => cases haround
      | enter inside directory found =>
        cases haround
        rw [← directory]
        simpa [Path.Component.place] using inside
    · exact absurd rfl hne
  · obtain ⟨hyes, -⟩ | ⟨hyes, -⟩ | ⟨-, -, entry, hfind, rfl⟩ := hcases
    · rw [hfiller] at hyes
      cases hyes
    · exact absurd hyes hup
    · rw [heq]
      exact h.enter hdir hfind

theorem IsAt.foldlM {segments : List Text} (h : IsAt tree trail here)
    (hnext : segments.foldlM Trail.enter trail = .ok next) :
    IsAt tree next ((segments.filterMap (Path.component? false)).foldl Path.Component.place here) := by
  induction segments generalizing trail here with
  | nil =>
    cases hnext
    exact h
  | cons segment segments ih =>
    rw [List.foldlM_cons] at hnext
    obtain ⟨middle, hstep, hnext⟩ := bind_eq_ok.mp hnext
    have hrest := ih (h.step hstep) hnext
    cases hc : Path.component? false segment <;> simpa [hc] using hrest

end

end Trail

namespace Workspace

/-- Whether a workspace is one that a disk can hold. -/
def isSound (workspace : Workspace) : Bool :=
  workspace.tree.isSound && workspace.current.all Path.isName

/-- The names from the top of the tree of the place that a path leads to, if it leads anywhere. -/
def location (workspace : Workspace) (path : Text) : List Text :=
  (Path.components path).foldl Path.Component.place workspace.current

/-- The names from the top of the tree of the place that a path starts from. -/
def origin (workspace : Workspace) (path : Text) : List Text :=
  if Path.isAbsolute path then [] else workspace.current

/-- Following a path leaves a trail behind. What is missing for an entry is that the path be short
enough. -/
structure Follows (workspace : Workspace) (path : Text) (trail : Trail) : Prop where
  ne_nil : path ≠ []
  noNull : '\x00' ∉ path
  reached : workspace.trail path = .ok trail

section

variable {workspace : Workspace} {path base other segment : Text} {entry : FileTree.Entry}
  {trail next here : Trail}

theorem trail_eq_ok_iff : workspace.trail path = .ok trail ↔
    ∃ here, workspace.start path = .ok here ∧ (Path.segments path).foldlM Trail.enter here = .ok trail :=
  bind_eq_ok

theorem entry_eq_ok_iff : workspace.entry path = .ok entry ↔
    Path.fits path = true ∧ ∃ trail, workspace.Follows path trail ∧ trail.entry = entry := by
  unfold Workspace.entry
  constructor
  · intro h
    split_ifs at h with hnull hfits hne
    obtain ⟨trail, hreached, h⟩ := bind_eq_ok.mp h
    exact ⟨by simpa using hfits, trail, ⟨hne, by simpa using hnull, hreached⟩, Except.ok.inj h⟩
  · rintro ⟨hfits, trail, h, rfl⟩
    have hnull := h.noNull
    have hne := h.ne_nil
    simp [*, h.reached, bind, Except.bind, pure, Except.pure]

/-- A path that says nothing leads to where it starts. -/
theorem trail_of_fillers {entries : FileTree} (hstart : workspace.start path = .ok here)
    (hdirectory : here.entry = .directory entries)
    (hfillers : ∀ segment ∈ Path.segments path, Path.isFiller segment = true) :
    workspace.trail path = .ok here := by
  refine trail_eq_ok_iff.mpr ⟨here, hstart, ?_⟩
  generalize Path.segments path = all at hfillers
  induction all with
  | nil => rfl
  | cons segment all ih =>
    obtain ⟨hfiller, hfillers⟩ := List.forall_mem_cons.mp hfillers
    rw [List.foldlM_cons, Trail.enter_filler hdirectory hfiller]
    exact ih hfillers

theorem isDirectory_iff : workspace.isDirectory path = true ↔
    ∃ entries, workspace.entry path = .ok (.directory entries) := by
  unfold isDirectory
  cases workspace.entry path with
  | error _ => simp
  | ok entry => cases entry <;> simp [FileTree.Entry.isDirectory]

theorem foldl_place_names (here names : List Text) :
    (names.map Path.Component.name).foldl Path.Component.place here = here ++ names := by
  induction names generalizing here with
  | nil => simp
  | cons name names ih =>
    rw [List.map_cons, List.foldl_cons, ih]
    simp [Path.Component.place]

theorem location_eq (workspace : Workspace) (path : Text) : workspace.location path =
    (Path.behind path).foldl Path.Component.place (workspace.origin path) := by
  by_cases hne : path = []
  · rw [hne]
    rfl
  · rw [location, Path.components_eq hne, List.foldl_append, Path.lead, origin]
    split_ifs <;> rfl

theorem isName_of_isSound (sound : workspace.isSound = true) :
    ∀ name ∈ workspace.current, Path.isName name = true := by
  simp only [isSound, Bool.and_eq_true, List.all_eq_true] at sound
  exact sound.2

theorem isAt_of_start (hnames : ∀ name ∈ workspace.current, Path.isName name = true)
    (h : workspace.start path = .ok here) : Trail.IsAt workspace.tree here (workspace.origin path) := by
  unfold start at h
  unfold origin
  split_ifs at h ⊢
  · cases h
    exact .top
  · have hhere := Trail.IsAt.top.foldlM h
    rwa [Path.filterMap_component?_names hnames, foldl_place_names, List.nil_append] at hhere

theorem isAt_of_trail (hnames : ∀ name ∈ workspace.current, Path.isName name = true)
    (h : workspace.trail path = .ok trail) :
    Trail.IsAt workspace.tree trail (workspace.location path) := by
  obtain ⟨here, hstart, h⟩ := trail_eq_ok_iff.mp h
  rw [location_eq]
  exact (isAt_of_start hnames hstart).foldlM h

theorem Follows.isAt_of_names (hnames : ∀ name ∈ workspace.current, Path.isName name = true)
    (follows : workspace.Follows path trail) :
    Trail.IsAt workspace.tree trail (workspace.location path) :=
  isAt_of_trail hnames follows.reached

theorem Follows.isAt (sound : workspace.isSound = true) (follows : workspace.Follows path trail) :
    Trail.IsAt workspace.tree trail (workspace.location path) :=
  follows.isAt_of_names (isName_of_isSound sound)

/-- A path leads to the entry at its location. -/
theorem entryAt?_location (sound : workspace.isSound = true) (h : workspace.entry path = .ok entry) :
    workspace.tree.entryAt? (workspace.location path) = some entry := by
  obtain ⟨-, trail, follows, rfl⟩ := entry_eq_ok_iff.mp h
  exact (follows.isAt sound).entryAt?

/-! ## Joined paths -/

theorem start_congr (h : Path.isAbsolute path = Path.isAbsolute other) :
    workspace.start path = workspace.start other := by
  rw [start, start, h]

theorem origin_congr (h : Path.isAbsolute path = Path.isAbsolute other) :
    workspace.origin path = workspace.origin other := by
  rw [origin, origin, h]

theorem Follows.trail_join (h : workspace.Follows base trail) (hother : Path.isAbsolute other = false) :
    workspace.trail (Path.join base other) = (Path.segments other).foldlM Trail.enter trail := by
  obtain ⟨front, -, hjoin, hsegments⟩ := Path.exists_segments_join h.ne_nil hother
  obtain ⟨here, hstart, hreached⟩ := trail_eq_ok_iff.mp h.reached
  have hfront : front.foldlM Trail.enter here = .ok trail := by
    rcases hsegments with hsegments | hsegments
    · rw [← hsegments]
      exact hreached
    · -- A slash at the end of the base leads nowhere else.
      rw [hsegments, List.foldlM_append] at hreached
      obtain ⟨there, hfront, hreached⟩ := bind_eq_ok.mp hreached
      rw [hfront, Trail.eq_of_foldlM_fillers (by simp [Path.isFiller]) hreached]
  unfold Workspace.trail
  rw [start_congr (Path.isAbsolute_join h.ne_nil hother), hstart, hjoin]
  show (front ++ Path.segments other).foldlM Trail.enter here = _
  rw [List.foldlM_append, hfront]
  rfl

theorem Follows.join (h : workspace.Follows base trail) (hother : Path.isAbsolute other = false)
    (hnull : '\x00' ∉ other) (hnext : (Path.segments other).foldlM Trail.enter trail = .ok next) :
    workspace.Follows (Path.join base other) next where
  ne_nil := Path.join_ne_nil h.ne_nil _
  noNull := Path.not_mem_join (by decide) hother h.noNull hnull
  reached := by rw [h.trail_join hother, hnext]

/-! ## Below a directory -/

theorem location_of_behind {names : List Text} (habsolute : Path.isAbsolute path = Path.isAbsolute base)
    (h : Path.behind path = Path.behind base ++ names.map .name) :
    workspace.location path = workspace.location base ++ names := by
  rw [location_eq, location_eq, h, List.foldl_append, foldl_place_names, origin_congr habsolute]

theorem isSound_of_entry {entries : FileTree} (sound : workspace.isSound = true)
    (h : workspace.entry path = .ok (.directory entries)) : entries.isSound = true := by
  have hat := entryAt?_location sound h
  simp only [isSound, Bool.and_eq_true] at sound
  exact FileTree.isSound_of_entryAt? sound.1 hat

/-- A file reached from a path has the path in front of its own names. -/
theorem exists_of_mem_filesFrom (sound : workspace.isSound = true)
    (h : path ∈ workspace.filesFrom base) : ∃ entry names, workspace.entry base = .ok entry ∧
      names ∈ entry.files ∧ (∀ name ∈ names, Path.isName name = true) ∧ path = Path.below base names := by
  unfold filesFrom at h
  split at h
  · rename_i content hentry
    rw [List.mem_singleton] at h
    exact ⟨_, [], hentry, List.mem_singleton_self _, by simp, h⟩
  · rename_i entries hentry
    obtain ⟨hin, -⟩ := List.mem_filter.mp h
    obtain ⟨names, hnames, rfl⟩ := List.mem_map.mp hin
    obtain ⟨hsome, hall⟩ := FileTree.names_of_mem_files (isSound_of_entry sound hentry) hnames
    exact ⟨_, names, hentry, hnames, hall, (Path.below_of_ne_nil hsome base).symm⟩
  · cases h

/-- A file reached from a path is there. -/
theorem entry_of_mem_filesFrom (sound : workspace.isSound = true) (h : path ∈ workspace.filesFrom base) :
    ∃ content, workspace.entry path = .ok (.file content) := by
  unfold filesFrom at h
  split at h
  · rename_i content hentry
    exact ⟨content, by rw [List.mem_singleton.mp h, hentry]⟩
  · rename_i entries hentry
    obtain ⟨-, trail, follows, hdirectory⟩ := entry_eq_ok_iff.mp hentry
    obtain ⟨hin, hfits⟩ := List.mem_filter.mp h
    obtain ⟨names, hnames, rfl⟩ := List.mem_map.mp hin
    have hentries := isSound_of_entry sound hentry
    obtain ⟨hsome, hall⟩ := FileTree.names_of_mem_files hentries hnames
    obtain ⟨content, hcontent⟩ := (FileTree.mem_files_iff hentries).mp hnames
    obtain ⟨next, hnext, hfile⟩ := Trail.exists_foldlM_names hdirectory hall hcontent
    have hnull : '\x00' ∉ Path.ofSegments names :=
      Path.not_mem_ofSegments (by decide) fun name hname => (Path.isName_iff.mp (hall name hname)).2.2.2.1
    rw [← Path.segments_ofSegments hsome hall] at hnext
    exact ⟨content, entry_eq_ok_iff.mpr
      ⟨hfits, next, follows.join (Path.isAbsolute_ofSegments hall) hnull hnext, hfile⟩⟩
  · cases h

/-- And each file at and below a path is reached, if there is room for its path. -/
theorem below_mem_filesFrom {names : List Text} (sound : workspace.isSound = true)
    (hentry : workspace.entry base = .ok entry) (h : names ∈ entry.files)
    (room : Text.byteLength base + entry.span ≤ Path.maxBytes) :
    Path.below base names ∈ workspace.filesFrom base := by
  unfold filesFrom
  rw [hentry]
  cases entry with
  | file content =>
    rw [List.mem_singleton.mp h]
    exact List.mem_singleton_self _
  | directory entries =>
    have hentries := isSound_of_entry sound hentry
    obtain ⟨hsome, hall⟩ := FileTree.names_of_mem_files hentries h
    obtain ⟨content, hcontent⟩ := (FileTree.mem_files_iff hentries).mp h
    have hspan := FileTree.span_of_entryAt? hcontent
    have hlength := Path.byteLength_ofSegments hsome
    have hjoin := Path.byteLength_join_le base (Path.ofSegments names)
    simp only [FileTree.Entry.span] at room hspan
    rw [Path.below_of_ne_nil hsome]
    exact List.mem_filter.mpr ⟨List.mem_map_of_mem h, decide_eq_true (by omega)⟩

end

end Workspace

end Phrasebook
