import Phrasebook.FileTree
import Phrasebook.Proofs.Path

/-!
# Entries and the names that lead to them

In a tree such as a disk holds, no directory has two entries of one name, and every name is one that a
path can have among its segments. Then the names of an entry tell it from all others.
-/

namespace Phrasebook.FileTree

/-- Whether a tree is one that a disk can hold. -/
def isSound : FileTree → Bool
  | empty => true
  | file name _ others => Path.isName name && (others.find? name).isNone && others.isSound
  | directory name entries others =>
    Path.isName name && (others.find? name).isNone && entries.isSound && others.isSound

/-- The entries of a directory with their names. -/
def rows : FileTree → List (Text × Entry)
  | empty => []
  | file name content others => (name, .file content) :: others.rows
  | directory name entries others => (name, .directory entries) :: others.rows

section

variable {tree entries : FileTree} {name : Text} {names : List Text} {entry : Entry}

/-! ## One directory -/

theorem mem_rows_of_find? (h : tree.find? name = some entry) : (name, entry) ∈ tree.rows := by
  induction tree with
  | empty => cases h
  | file n content others ih =>
    rw [find?] at h
    split at h
    · simp_all [rows]
    · exact List.mem_cons_of_mem _ (ih h)
  | directory n inner others _ ih =>
    rw [find?] at h
    split at h
    · simp_all [rows]
    · exact List.mem_cons_of_mem _ (ih h)

theorem ne_of_mem_rows (h : tree.find? name = none) : ∀ row ∈ tree.rows, name ≠ row.1 := by
  induction tree with
  | empty => simp [rows]
  | file n content others ih =>
    rw [find?] at h
    split at h
    · cases h
    · rename_i hne
      exact List.forall_mem_cons.mpr ⟨Ne.symm hne, ih h⟩
  | directory n inner others _ ih =>
    rw [find?] at h
    split at h
    · cases h
    · rename_i hne
      exact List.forall_mem_cons.mpr ⟨Ne.symm hne, ih h⟩

/-- Of a sound tree each row is found by its name, and its own entries are sound. -/
theorem row_of_isSound (sound : tree.isSound = true) (h : (name, entry) ∈ tree.rows) :
    tree.find? name = some entry ∧ Path.isName name = true ∧
      ∀ entries, entry = .directory entries → entries.isSound = true := by
  induction tree with
  | empty => cases h
  | file n content others ih =>
    simp only [isSound, Bool.and_eq_true, Option.isNone_iff_eq_none] at sound
    obtain ⟨⟨hname, hnew⟩, hothers⟩ := sound
    rcases List.mem_cons.mp h with heq | hin
    · cases heq
      exact ⟨by simp [find?], hname, by simp⟩
    · have hne := ne_of_mem_rows hnew _ hin
      rw [find?, if_neg hne]
      exact ih hothers hin
  | directory n inner others _ ih =>
    simp only [isSound, Bool.and_eq_true, Option.isNone_iff_eq_none] at sound
    obtain ⟨⟨⟨hname, hnew⟩, hinner⟩, hothers⟩ := sound
    rcases List.mem_cons.mp h with heq | hin
    · cases heq
      refine ⟨by simp [find?], hname, ?_⟩
      rintro _ ⟨⟩
      exact hinner
    · have hne := ne_of_mem_rows hnew _ hin
      rw [find?, if_neg hne]
      exact ih hothers hin

theorem mem_rows_iff (sound : tree.isSound = true) :
    (name, entry) ∈ tree.rows ↔ tree.find? name = some entry :=
  ⟨fun h => (row_of_isSound sound h).1, mem_rows_of_find?⟩

theorem isName_of_find? (sound : tree.isSound = true) (h : tree.find? name = some entry) :
    Path.isName name = true :=
  (row_of_isSound sound (mem_rows_of_find? h)).2.1

theorem isSound_of_find? (sound : tree.isSound = true)
    (h : tree.find? name = some (.directory entries)) : entries.isSound = true :=
  (row_of_isSound sound (mem_rows_of_find? h)).2.2 entries rfl

/-! ## Any depth -/

@[simp] theorem entryAt?_nil (tree : FileTree) : tree.entryAt? [] = some (.directory tree) := rfl

theorem entryAt?_cons_iff : tree.entryAt? (name :: names) = some entry ↔
    (names = [] ∧ tree.find? name = some entry) ∨
      ∃ entries, tree.find? name = some (.directory entries) ∧
        entries.entryAt? names = some entry := by
  rw [entryAt?]
  split
  · rename_i inner heq
    rw [heq]
    constructor
    · intro h
      exact Or.inr ⟨inner, rfl, h⟩
    · rintro (⟨rfl, h⟩ | ⟨entries, h, hentry⟩)
      · cases h
        rfl
      · cases h
        exact hentry
  · rename_i content heq
    rw [heq]
    simp
  · rename_i heq
    rw [heq]
    simp

theorem entryAt?_singleton (tree : FileTree) (name : Text) :
    tree.entryAt? [name] = tree.find? name := by
  rw [entryAt?]
  split <;> simp_all

theorem entryAt?_of_rows (sound : tree.isSound = true) (hothers : entries.isSound = true)
    (hrows : entries.rows ⊆ tree.rows) (hne : names ≠ []) (h : entries.entryAt? names = some entry) :
    tree.entryAt? names = some entry := by
  have hfind (name : Text) (entry : Entry) (h : entries.find? name = some entry) :
      tree.find? name = some entry :=
    (mem_rows_iff sound).mp (hrows ((mem_rows_iff hothers).mpr h))
  obtain ⟨first, later, rfl⟩ := List.exists_cons_of_ne_nil hne
  rw [entryAt?_cons_iff] at h ⊢
  rcases h with ⟨hnil, h⟩ | ⟨inner, h, hinner⟩
  · exact Or.inl ⟨hnil, hfind _ _ h⟩
  · exact Or.inr ⟨inner, hfind _ _ h, hinner⟩

theorem entryAt?_append {here : List Text} (h : tree.entryAt? here = some (.directory entries)) :
    tree.entryAt? (here ++ names) = entries.entryAt? names := by
  induction here generalizing tree with
  | nil =>
    cases h
    rfl
  | cons first here ih =>
    rcases entryAt?_cons_iff.mp h with ⟨rfl, hfind⟩ | ⟨inner, hfind, hinner⟩
    · rw [List.cons_append, entryAt?, hfind]
      rfl
    · rw [List.cons_append, entryAt?, hfind]
      exact ih hinner

theorem isSound_of_entryAt? (sound : tree.isSound = true)
    (h : tree.entryAt? names = some (.directory entries)) : entries.isSound = true := by
  induction names generalizing tree with
  | nil =>
    cases h
    exact sound
  | cons first names ih =>
    rcases entryAt?_cons_iff.mp h with ⟨rfl, hfind⟩ | ⟨inner, hfind, hinner⟩
    · exact isSound_of_find? sound hfind
    · exact ih (isSound_of_find? sound hfind) hinner

theorem isName_of_entryAt? (sound : tree.isSound = true) (h : tree.entryAt? names = some entry) :
    ∀ name ∈ names, Path.isName name = true := by
  induction names generalizing tree with
  | nil => simp
  | cons first names ih =>
    rw [List.forall_mem_cons]
    rcases entryAt?_cons_iff.mp h with ⟨rfl, hfind⟩ | ⟨inner, hfind, hinner⟩
    · exact ⟨isName_of_find? sound hfind, by simp⟩
    · exact ⟨isName_of_find? sound hfind, ih (isSound_of_find? sound hfind) hinner⟩

/-! ## Files -/

/-- The names that lead from an entry to each file at and below it. -/
def Entry.files : Entry → List (List Text)
  | .file _ => [[]]
  | .directory entries => entries.files

theorem not_mem_files_nil (tree : FileTree) : [] ∉ tree.files := by
  induction tree <;> simp_all [files]

theorem cons_mem_files_iff : name :: names ∈ tree.files ↔
    (names = [] ∧ ∃ content, (name, .file content) ∈ tree.rows) ∨
      ∃ entries, (name, .directory entries) ∈ tree.rows ∧ names ∈ entries.files := by
  induction tree with
  | empty => simp [files, rows]
  | file n content others ih =>
    simp only [files, rows, List.mem_cons, List.cons.injEq, ih, Prod.mk.injEq, Entry.file.injEq]
    constructor
    · rintro (⟨rfl, rfl⟩ | ⟨rfl, content', h⟩ | ⟨entries, h, hin⟩)
      · exact Or.inl ⟨rfl, content, Or.inl ⟨rfl, rfl⟩⟩
      · exact Or.inl ⟨rfl, content', Or.inr h⟩
      · exact Or.inr ⟨entries, Or.inr h, hin⟩
    · rintro (⟨rfl, content', ⟨rfl, -⟩ | h⟩ | ⟨entries, ⟨-, h⟩ | h, hin⟩)
      · exact Or.inl ⟨rfl, rfl⟩
      · exact Or.inr (Or.inl ⟨rfl, content', h⟩)
      · cases h
      · exact Or.inr (Or.inr ⟨entries, h, hin⟩)
  | directory n inner others _ ih =>
    simp only [files, rows, List.mem_append, List.mem_map, List.cons.injEq, ih, List.mem_cons,
      Prod.mk.injEq, Entry.directory.injEq, reduceCtorEq, and_false, false_or]
    constructor
    · rintro (⟨rest, hin, rfl, rfl⟩ | h | ⟨entries, h, hin⟩)
      · exact Or.inr ⟨inner, Or.inl ⟨rfl, rfl⟩, hin⟩
      · exact Or.inl h
      · exact Or.inr ⟨entries, Or.inr h, hin⟩
    · rintro (h | ⟨entries, ⟨rfl, rfl⟩ | h, hin⟩)
      · exact Or.inr (Or.inl h)
      · exact Or.inl ⟨names, hin, rfl, rfl⟩
      · exact Or.inr (Or.inr ⟨entries, h, hin⟩)

/-- The files that are listed are those that there are. -/
theorem mem_files_iff (sound : tree.isSound = true) :
    names ∈ tree.files ↔ ∃ content, tree.entryAt? names = some (.file content) := by
  induction names generalizing tree with
  | nil => simp [not_mem_files_nil]
  | cons first names ih =>
    rw [cons_mem_files_iff]
    simp only [mem_rows_iff sound, entryAt?_cons_iff]
    constructor
    · rintro (⟨hnil, content, h⟩ | ⟨inner, hfind, hin⟩)
      · exact ⟨content, Or.inl ⟨hnil, h⟩⟩
      · obtain ⟨content, h⟩ := (ih (isSound_of_find? sound hfind)).mp hin
        exact ⟨content, Or.inr ⟨inner, hfind, h⟩⟩
    · rintro ⟨content, ⟨hnil, h⟩ | ⟨inner, hfind, h⟩⟩
      · exact Or.inl ⟨hnil, content, h⟩
      · exact Or.inr ⟨inner, hfind, (ih (isSound_of_find? sound hfind)).mpr ⟨content, h⟩⟩

theorem names_of_mem_files (sound : tree.isSound = true) (h : names ∈ tree.files) :
    names ≠ [] ∧ ∀ name ∈ names, Path.isName name = true := by
  obtain ⟨content, hcontent⟩ := (mem_files_iff sound).mp h
  refine ⟨?_, isName_of_entryAt? sound hcontent⟩
  rintro rfl
  exact not_mem_files_nil tree h

end

/-! ## Room -/

/-- The number of bytes that a path can need behind that of a directory, each name with its slash. -/
def span : FileTree → Nat
  | empty => 0
  | file name _ others => max (Text.byteLength name + 1) others.span
  | directory name entries others => max (Text.byteLength name + 1 + entries.span) others.span

def Entry.span : Entry → Nat
  | .file _ => 0
  | .directory entries => entries.span

section

variable {tree : FileTree} {name : Text} {names : List Text} {entry : Entry}

theorem span_of_mem_rows (h : (name, entry) ∈ tree.rows) :
    Text.byteLength name + 1 + entry.span ≤ tree.span := by
  induction tree with
  | empty => cases h
  | file n content others ih =>
    rcases List.mem_cons.mp h with h | h
    · cases h
      exact le_max_left _ _
    · exact (ih h).trans (le_max_right _ _)
  | directory n inner others _ ih =>
    rcases List.mem_cons.mp h with h | h
    · cases h
      exact le_max_left _ _
    · exact (ih h).trans (le_max_right _ _)

/-- The names of an entry, each with a slash, and what the entry needs itself. -/
theorem span_of_entryAt? (h : tree.entryAt? names = some entry) :
    (names.map fun name => Text.byteLength name + 1).sum + entry.span ≤ tree.span := by
  induction names generalizing tree with
  | nil =>
    cases h
    simp [Entry.span]
  | cons first names ih =>
    rw [List.map_cons, List.sum_cons]
    rcases entryAt?_cons_iff.mp h with ⟨rfl, hfind⟩ | ⟨inner, hfind, hinner⟩
    · simpa using span_of_mem_rows (mem_rows_of_find? hfind)
    · have hfirst := span_of_mem_rows (mem_rows_of_find? hfind)
      have hlater := ih hinner
      simp only [Entry.span] at hfirst
      omega

end

end Phrasebook.FileTree
