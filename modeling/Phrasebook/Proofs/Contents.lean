import Phrasebook.Proofs.Workspace

/-!
# Texts and the places of files

Where a path leads does not depend on the texts of the files. A workspace without them answers in the
same way whether something is there, whether it is a directory and which files are below it. So another
text in one file changes what is read there, and nothing else.
-/

namespace Phrasebook

namespace FileTree

/-! ## Trees without texts -/

/-- The tree without the texts of its files. -/
def bare : FileTree → FileTree
  | empty => empty
  | file name _ others => file name none others.bare
  | directory name entries others => directory name entries.bare others.bare

def Entry.bare : Entry → Entry
  | .file _ => .file none
  | .directory entries => .directory entries.bare

@[simp] theorem Entry.isDirectory_bare (entry : Entry) : entry.bare.isDirectory = entry.isDirectory := by
  cases entry <;> rfl

theorem find?_bare (tree : FileTree) (name : Text) :
    tree.bare.find? name = (tree.find? name).map Entry.bare := by
  induction tree with
  | empty => rfl
  | file n content others ih =>
    rw [bare, find?, find?]
    split
    · rfl
    · exact ih
  | directory n entries others _ ih =>
    rw [bare, find?, find?]
    split
    · rfl
    · exact ih

@[simp] theorem isSound_bare (tree : FileTree) : tree.bare.isSound = tree.isSound := by
  induction tree with
  | empty => rfl
  | file n content others ih => simp [bare, isSound, find?_bare, ih]
  | directory n entries others ihe ih => simp [bare, isSound, find?_bare, ihe, ih]

@[simp] theorem files_bare (tree : FileTree) : tree.bare.files = tree.files := by
  induction tree <;> simp [bare, files, *]

@[simp] theorem filesUnder_bare (path : Text) (tree : FileTree) :
    tree.bare.filesUnder path = tree.filesUnder path := by
  simp [filesUnder]

@[simp] theorem closedBehind_bare (bytes : Nat) (tree : FileTree) :
    tree.bare.closedBehind bytes = tree.closedBehind bytes := by
  induction tree generalizing bytes <;> simp [bare, closedBehind, *]

@[simp] theorem closedUnder_bare (path : Text) (tree : FileTree) :
    tree.bare.closedUnder path = tree.closedUnder path := by
  simp [closedUnder]

/-! ## Another text in one file -/

/-- The tree with `text` in the file that `names` lead to, if there is one. -/
def withText (text : Text) : FileTree → List Text → FileTree
  | empty, _ => empty
  | file name content others, names =>
    file name (if names = [name] then some text else content) (others.withText text names)
  | directory name entries others, names =>
    directory name (if names.head? = some name then entries.withText text names.tail else entries)
      (others.withText text names)

def Entry.withText (text : Text) (names : List Text) : Entry → Entry
  | .file content => .file (if names = [] then some text else content)
  | .directory entries => .directory (entries.withText text names)

section

variable {tree : FileTree} {names other : List Text} {content : Option Text}

@[simp] theorem bare_withText (text : Text) (tree : FileTree) (names : List Text) :
    (tree.withText text names).bare = tree.bare := by
  induction tree generalizing names with
  | empty => rfl
  | file n content others ih => rw [withText, bare, bare, ih]
  | directory n entries others ihe ih =>
    rw [withText, bare, bare, ih]
    split
    · rw [ihe]
    · rfl

@[simp] theorem withText_nil (text : Text) (tree : FileTree) : tree.withText text [] = tree := by
  induction tree <;> simp [withText, *]

theorem find?_withText (text : Text) (tree : FileTree) (name first : Text) (later : List Text) :
    (tree.withText text (first :: later)).find? name =
      if name = first then (tree.find? name).map (Entry.withText text later) else tree.find? name := by
  induction tree with
  | empty => simp [withText, find?]
  | file n content others ih =>
    by_cases hn : n = name
    · by_cases hfirst : name = first
      · simp [withText, find?, Entry.withText, hn, hfirst]
      · simp [withText, find?, hn, hfirst, Ne.symm hfirst]
    · simp [withText, find?, hn, ih]
  | directory n entries others _ ih =>
    by_cases hn : n = name
    · by_cases hfirst : name = first
      · simp [withText, find?, Entry.withText, hn, hfirst]
      · simp [withText, find?, hn, hfirst, Ne.symm hfirst]
    · simp [withText, find?, hn, ih]

/-- The text is found where it has been put. -/
theorem entryAt?_withText_self (text : Text) (h : tree.entryAt? names = some (.file content)) :
    (tree.withText text names).entryAt? names = some (.file (some text)) := by
  induction names generalizing tree with
  | nil => cases h
  | cons first names ih =>
    rw [entryAt?_cons_iff, find?_withText, if_pos rfl]
    rcases entryAt?_cons_iff.mp h with ⟨rfl, hfind⟩ | ⟨entries, hfind, hinner⟩
    · exact Or.inl ⟨rfl, by rw [hfind]; rfl⟩
    · exact Or.inr ⟨entries.withText text names, by rw [hfind]; rfl, ih hinner⟩

/-- All other files are as they were. -/
theorem entryAt?_withText_of_ne (text : Text) (hne : other ≠ names)
    (h : tree.entryAt? other = some (.file content)) :
    (tree.withText text names).entryAt? other = some (.file content) := by
  induction other generalizing tree names with
  | nil => cases h
  | cons name other ih =>
    cases names with
    | nil => rwa [withText_nil]
    | cons first later =>
      rw [entryAt?_cons_iff, find?_withText]
      by_cases hfirst : name = first
      · subst hfirst
        have hlater : other ≠ later := fun h => hne (by rw [h])
        rw [if_pos rfl]
        rcases entryAt?_cons_iff.mp h with ⟨rfl, hfind⟩ | ⟨entries, hfind, hinner⟩
        · exact Or.inl ⟨rfl, by simp [hfind, Entry.withText, hlater.symm]⟩
        · exact Or.inr ⟨entries.withText text later, by rw [hfind]; rfl, ih hlater hinner⟩
      · rw [if_neg hfirst]
        exact entryAt?_cons_iff.mp h

end

end FileTree

/-! ## Following a path -/

namespace Trail

def bare (trail : Trail) : Trail := ⟨trail.entry.bare, trail.around.map FileTree.bare⟩

theorem enter_bare (trail : Trail) (segment : Text) :
    trail.bare.enter segment = (trail.enter segment).map bare := by
  obtain ⟨entry, around⟩ := trail
  cases entry with
  | file content => rfl
  | directory entries =>
    simp only [enter, bare, FileTree.Entry.bare, FileTree.find?_bare]
    split_ifs
    · rfl
    · cases around <;> rfl
    · rfl
    · cases entries.find? segment <;> rfl

theorem foldlM_enter_bare (segments : List Text) (trail : Trail) :
    segments.foldlM enter trail.bare = (segments.foldlM enter trail).map bare := by
  induction segments generalizing trail with
  | nil => rfl
  | cons segment segments ih =>
    rw [List.foldlM_cons, List.foldlM_cons, enter_bare]
    cases trail.enter segment with
    | error failure => rfl
    | ok next => exact ih next

end Trail

namespace Workspace

/-- The workspace without the texts of its files. -/
def bare (workspace : Workspace) : Workspace := { workspace with tree := workspace.tree.bare }

theorem start_bare (workspace : Workspace) (path : Text) :
    workspace.bare.start path = (workspace.start path).map Trail.bare := by
  have htop : Trail.top workspace.tree.bare = (Trail.top workspace.tree).bare := rfl
  unfold start
  split_ifs
  · rfl
  · simp only [bare, htop, Trail.foldlM_enter_bare]

theorem trail_bare (workspace : Workspace) (path : Text) :
    workspace.bare.trail path = (workspace.trail path).map Trail.bare := by
  rw [trail, trail, start_bare]
  cases workspace.start path with
  | error failure => rfl
  | ok here => exact Trail.foldlM_enter_bare (Path.segments path) here

theorem entry_bare (workspace : Workspace) (path : Text) :
    workspace.bare.entry path = (workspace.entry path).map FileTree.Entry.bare := by
  unfold entry
  rw [trail_bare]
  split_ifs
  · rfl
  · rfl
  · rfl
  · cases workspace.trail path <;> rfl

@[simp] theorem exists?_bare (workspace : Workspace) (path : Text) :
    workspace.bare.exists? path = workspace.exists? path := by
  rw [exists?, exists?, entry_bare]
  cases workspace.entry path <;> rfl

@[simp] theorem isDirectory_bare (workspace : Workspace) (path : Text) :
    workspace.bare.isDirectory path = workspace.isDirectory path := by
  rw [isDirectory, isDirectory, entry_bare]
  cases workspace.entry path with
  | error failure => rfl
  | ok entry => exact entry.isDirectory_bare

@[simp] theorem filesFrom_bare (workspace : Workspace) (path : Text) :
    workspace.bare.filesFrom path = workspace.filesFrom path := by
  rw [filesFrom, filesFrom, entry_bare]
  cases workspace.entry path with
  | error failure => rfl
  | ok entry => cases entry <;> simp [Except.map, FileTree.Entry.bare]

@[simp] theorem closedFrom_bare (workspace : Workspace) (path : Text) :
    workspace.bare.closedFrom path = workspace.closedFrom path := by
  rw [closedFrom, closedFrom, entry_bare]
  cases workspace.entry path with
  | error failure => rfl
  | ok entry => cases entry <;> simp [Except.map, FileTree.Entry.bare]

/-! ## Reading -/

/-- The workspace with `text` in the file at `path`. -/
def withText (workspace : Workspace) (path text : Text) : Workspace :=
  { workspace with tree := workspace.tree.withText text (workspace.location path) }

section

variable {workspace : Workspace} {path file text before : Text}

@[simp] theorem bare_withText (workspace : Workspace) (path text : Text) :
    (workspace.withText path text).bare = workspace.bare := by
  simp [withText, bare]

theorem isDirectory_withText (path text other : Text) :
    (workspace.withText path text).isDirectory other = workspace.isDirectory other := by
  rw [← isDirectory_bare, bare_withText, isDirectory_bare]

theorem isSound_withText (sound : workspace.isSound = true) :
    (workspace.withText path text).isSound = true := by
  rw [isSound, ← FileTree.isSound_bare] at sound ⊢
  simpa [withText] using sound

/-- What is at a path may have another text, but it is of the same kind. -/
theorem entry_withText (workspace : Workspace) (path text file : Text) :
    ((workspace.withText path text).entry file).map FileTree.Entry.bare =
      (workspace.entry file).map FileTree.Entry.bare := by
  rw [← entry_bare, ← entry_bare, bare_withText]

/-- Where a path leads to a file it still does, with what the changed tree has at its place. -/
theorem entry_withText_file {content content' : Option Text} (sound : workspace.isSound = true)
    (h : workspace.entry file = .ok (.file content))
    (hat : (workspace.tree.withText text (workspace.location path)).entryAt? (workspace.location file) =
      some (.file content')) :
    (workspace.withText path text).entry file = .ok (.file content') := by
  have hkind := entry_withText workspace path text file
  rw [h] at hkind
  obtain ⟨entry, hentry, -⟩ := map_eq_ok.mp hkind
  have hplace : (workspace.withText path text).tree.entryAt? ((workspace.withText path text).location file) =
      some entry := entryAt?_location (isSound_withText sound) hentry
  rw [hentry, ← Option.some.inj (hat.symm.trans hplace)]

theorem read_withText_of_error {failure : Failure} (h : workspace.entry file = .error failure) :
    (workspace.withText path text).read file = workspace.read file := by
  have hkind := entry_withText workspace path text file
  rw [h] at hkind
  rw [read, read, h, map_eq_error.mp hkind]

theorem read_eq_ok_iff : workspace.read file = .ok text ↔ workspace.entry file = .ok (.file (some text)) := by
  unfold read
  cases workspace.entry file with
  | error failure => simp [bind, Except.bind]
  | ok entry => rcases entry with (_ | _) | _ <;> simp [bind, Except.bind]

/-- Files at other places are read as before. -/
theorem read_withText_of_ne (sound : workspace.isSound = true)
    (hne : workspace.location file ≠ workspace.location path) :
    (workspace.withText path text).read file = workspace.read file := by
  cases hentry : workspace.entry file with
  | error failure => exact read_withText_of_error hentry
  | ok entry =>
    cases entry with
    | file content =>
      have hat := FileTree.entryAt?_withText_of_ne text hne (entryAt?_location sound hentry)
      rw [read, read, hentry, entry_withText_file sound hentry hat]
    | directory entries =>
      have hkind := entry_withText workspace path text file
      rw [hentry] at hkind
      obtain ⟨entry', hentry', hbare⟩ := map_eq_ok.mp hkind
      rw [read, read, hentry, hentry']
      cases entry' with
      | file content => cases hbare
      | directory entries' => rfl

/-- At the place of the changed file the new text is read, however the path to it is written. -/
theorem read_withText_of_eq (sound : workspace.isSound = true) (hread : workspace.read path = .ok before)
    (hsame : workspace.location file = workspace.location path) :
    (∃ failure, workspace.read file = .error failure ∧
        (workspace.withText path text).read file = .error failure) ∨
      (workspace.read file = .ok before ∧ (workspace.withText path text).read file = .ok text) := by
  have hold := entryAt?_location sound (read_eq_ok_iff.mp hread)
  cases hentry : workspace.entry file with
  | error failure =>
    refine Or.inl ⟨failure, by rw [read, hentry]; rfl, ?_⟩
    rw [read_withText_of_error hentry, read, hentry]
    rfl
  | ok entry =>
    have hfile : workspace.entry file = .ok (.file (some before)) := by
      have hat := entryAt?_location sound hentry
      rw [hsame, hold] at hat
      rw [hentry, ← Option.some.inj hat]
    have hnew := FileTree.entryAt?_withText_self text hold
    rw [read_eq_ok_iff, read_eq_ok_iff]
    exact Or.inr ⟨hfile, entry_withText_file sound hfile (hsame.symm ▸ hnew)⟩

theorem read_withText_self (sound : workspace.isSound = true) (hread : workspace.read path = .ok before)
    (text : Text) : (workspace.withText path text).read path = .ok text := by
  obtain ⟨failure, hold, -⟩ | ⟨-, hnew⟩ := read_withText_of_eq sound hread rfl
  · rw [hread] at hold
    cases hold
  · exact hnew

end

end Workspace

end Phrasebook
