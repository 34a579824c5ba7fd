import Phrasebook.Proofs.Contents

/-!
# One more file

A file is put into a directory in which nothing has its name. All other files stay as they are, and paths
lead to the same directories as before, of which those on the way to the new file have one more in them.
-/

namespace Phrasebook

namespace FileTree

/-! ## One more entry in a directory -/

section

variable {tree : FileTree} {name other : Text} {entry : Entry} {row : Text × Entry}

theorem find?_eq (tree : FileTree) (name : Text) :
    tree.find? name = (tree.rows.find? fun row => row.1 = name).map Prod.snd := by
  induction tree with
  | empty => rfl
  | file n content others ih =>
    rw [find?, rows, List.find?_cons, ih]
    by_cases hname : n = name <;> simp [hname]
  | directory n inner others _ ih =>
    rw [find?, rows, List.find?_cons, ih]
    by_cases hname : n = name <;> simp [hname]

/-- The entry takes the place of the one of its name, or is set between two others. -/
theorem exists_rows_put (tree : FileTree) (name : Text) (entry : Entry) :
    ∃ front back, (tree.put name entry).rows = front ++ (name, entry) :: back ∧
      (∀ row ∈ front, row.1 ≠ name) ∧
      (tree.rows = front ++ back ∨ ∃ old, tree.rows = front ++ (name, old) :: back) := by
  have hbefore (others : FileTree) : (entry.before name others).rows = (name, entry) :: others.rows := by
    cases entry <;> rfl
  induction tree with
  | empty => exact ⟨[], [], hbefore empty, by simp, Or.inl rfl⟩
  | file n content others ih =>
    rw [put]
    split_ifs with hsame
    · exact ⟨[], others.rows, hbefore others, by simp, Or.inr ⟨.file content, by rw [rows, hsame]; rfl⟩⟩
    · exact ⟨[], (file n content others).rows, hbefore _, by simp, Or.inl rfl⟩
    · obtain ⟨front, back, hput, hfront, hrows⟩ := ih
      refine ⟨(n, .file content) :: front, back, by rw [rows, hput]; rfl,
        List.forall_mem_cons.mpr ⟨hsame, hfront⟩, hrows.imp (fun h => ?_) (Exists.imp fun old h => ?_)⟩
      all_goals rw [rows, h]; rfl
  | directory n inner others _ ih =>
    rw [put]
    split_ifs with hsame
    · exact ⟨[], others.rows, hbefore others, by simp, Or.inr ⟨.directory inner, by rw [rows, hsame]; rfl⟩⟩
    · exact ⟨[], (directory n inner others).rows, hbefore _, by simp, Or.inl rfl⟩
    · obtain ⟨front, back, hput, hfront, hrows⟩ := ih
      refine ⟨(n, .directory inner) :: front, back, by rw [rows, hput]; rfl,
        List.forall_mem_cons.mpr ⟨hsame, hfront⟩, hrows.imp (fun h => ?_) (Exists.imp fun old h => ?_)⟩
      all_goals rw [rows, h]; rfl

theorem find?_put_self (tree : FileTree) (name : Text) (entry : Entry) :
    (tree.put name entry).find? name = some entry := by
  obtain ⟨front, back, hput, hfront, -⟩ := exists_rows_put tree name entry
  have hnone : front.find? (fun row => row.1 = name) = none := by simpa using hfront
  simp [find?_eq, hput, hnone]

theorem find?_put_of_ne (tree : FileTree) (entry : Entry) (h : name ≠ other) :
    (tree.put name entry).find? other = tree.find? other := by
  obtain ⟨front, back, hput, -, hrows | ⟨old, hrows⟩⟩ := exists_rows_put tree name entry
  all_goals simp [find?_eq, hput, hrows, h]

theorem mem_rows_put (h : row ∈ (tree.put name entry).rows) : row = (name, entry) ∨ row ∈ tree.rows := by
  obtain ⟨front, back, hput, -, hrows | ⟨old, hrows⟩⟩ := exists_rows_put tree name entry
  all_goals
    rw [hput, List.mem_append, List.mem_cons] at h
    rw [hrows]
    rcases h with h | rfl | h <;> simp [*]

/-- Only what is found by its name makes way for the new entry. -/
theorem mem_rows_put_of_mem (name : Text) (entry : Entry) (h : row ∈ tree.rows) :
    row ∈ (tree.put name entry).rows ∨ row.1 = name ∧ tree.find? name = some row.2 := by
  obtain ⟨front, back, hput, hfront, hrows | ⟨old, hrows⟩⟩ := exists_rows_put tree name entry
  · rw [hrows, List.mem_append] at h
    rw [hput]
    rcases h with h | h <;> simp [h]
  · have hnone : front.find? (fun row => row.1 = name) = none := by simpa using hfront
    rw [hrows, List.mem_append, List.mem_cons] at h
    rcases h with h | rfl | h
    · exact Or.inl (by rw [hput]; simp [h])
    · exact Or.inr ⟨rfl, by simp [find?_eq, hrows, hnone]⟩
    · exact Or.inl (by rw [hput]; simp [h])

end

/-! ## One more file at any depth -/

/-- The second tree is the first one with one more file, of this content and at this place. -/
inductive Added (content : Option Text) : List Text → FileTree → FileTree → Prop where
  | here {tree : FileTree} {name : Text} (new : tree.find? name = none) :
    Added content [name] tree (tree.put name (.file content))
  | inside {tree inner grown : FileTree} {name : Text} {names : List Text}
    (found : tree.find? name = some (.directory inner)) (later : Added content names inner grown) :
    Added content (name :: names) tree (tree.put name (.directory grown))

section

variable {tree grown entries : FileTree} {name : Text} {place names here : List Text} {content : Option Text}

theorem putAt_cons {inner : FileTree} {entry : Entry} (hne : names ≠ [])
    (found : tree.find? name = some (.directory inner)) :
    tree.putAt entry (name :: names) = tree.put name (.directory (inner.putAt entry names)) := by
  rw [putAt, found]
  exact hne

theorem added_putAt (content : Option Text) (h : tree.entryAt? here = some (.directory entries))
    (new : entries.find? name = none) :
    Added content (here ++ [name]) tree (tree.putAt (.file content) (here ++ [name])) := by
  induction here generalizing tree with
  | nil =>
    cases h
    exact .here new
  | cons first here ih =>
    obtain ⟨inner, hfound, hinner⟩ : ∃ inner, tree.find? first = some (.directory inner) ∧
        inner.entryAt? here = some (.directory entries) := by
      rcases entryAt?_cons_iff.mp h with ⟨rfl, hfound⟩ | hinner
      · exact ⟨entries, hfound, rfl⟩
      · exact hinner
    have hne : here ++ [name] ≠ [] := by simp
    rw [List.cons_append, putAt_cons hne hfound]
    exact .inside hfound (ih hinner)

theorem Added.ne_nil (h : Added content place tree grown) : place ≠ [] := by cases h <;> simp

/-- What stands at some names is the new file, or a directory that it lies below, or what stood there. -/
theorem Added.entryAt?_cases (h : Added content place tree grown) (names : List Text) :
    (names = place ∧ tree.entryAt? names = none ∧ grown.entryAt? names = some (.file content)) ∨
    (∃ rest inner inner', tree.entryAt? names = some (.directory inner) ∧
      grown.entryAt? names = some (.directory inner') ∧ names ++ rest = place ∧
      Added content rest inner inner') ∨
    (names ≠ place ∧ grown.entryAt? names = tree.entryAt? names) := by
  induction h generalizing names with
  | @here tree name new =>
    cases names with
    | nil => exact Or.inr (Or.inl ⟨_, _, _, rfl, rfl, rfl, .here new⟩)
    | cons first later =>
      by_cases hfirst : name = first
      · subst hfirst
        by_cases hlater : later = []
        · subst hlater
          exact Or.inl ⟨rfl, by rw [entryAt?_singleton, new], by rw [entryAt?_singleton, find?_put_self]⟩
        · refine Or.inr (Or.inr ⟨by simp [hlater], ?_⟩)
          rw [entryAt?, entryAt?, find?_put_self, new]
          exact if_neg hlater
      · refine Or.inr (Or.inr ⟨by simp [Ne.symm hfirst], ?_⟩)
        rw [entryAt?, entryAt?, find?_put_of_ne _ _ hfirst]
  | @inside tree inner grown name place found later ih =>
    cases names with
    | nil => exact Or.inr (Or.inl ⟨_, _, _, rfl, rfl, rfl, .inside found later⟩)
    | cons first names =>
      by_cases hfirst : name = first
      · subst hfirst
        have hold : tree.entryAt? (name :: names) = inner.entryAt? names := by rw [entryAt?, found]
        have hnew : (tree.put name (.directory grown)).entryAt? (name :: names) =
            grown.entryAt? names := by rw [entryAt?, find?_put_self]
        rw [hold, hnew]
        simpa using ih names
      · refine Or.inr (Or.inr ⟨by simp [Ne.symm hfirst], ?_⟩)
        rw [entryAt?, entryAt?, find?_put_of_ne _ _ hfirst]

theorem Added.entryAt?_place (h : Added content place tree grown) :
    grown.entryAt? place = some (.file content) := by
  rcases h.entryAt?_cases place with ⟨-, -, hnew⟩ | ⟨rest, inner, inner', -, -, hbelow, hadded⟩ | ⟨hne, -⟩
  · exact hnew
  · exact absurd (List.append_right_eq_self.mp hbelow) hadded.ne_nil
  · exact absurd rfl hne

/-- The two trees have their directories at the same places. -/
def SameDirectories (tree other : FileTree) : Prop :=
  ∀ names, (∃ entries, tree.entryAt? names = some (.directory entries)) ↔
    ∃ entries, other.entryAt? names = some (.directory entries)

theorem SameDirectories.symm (h : tree.SameDirectories grown) : grown.SameDirectories tree :=
  fun names => (h names).symm

theorem Added.sameDirectories (h : Added content place tree grown) : tree.SameDirectories grown := by
  intro names
  rcases h.entryAt?_cases names with
    ⟨-, hold, hnew⟩ | ⟨rest, inner, inner', hold, hnew, -⟩ | ⟨-, hsame⟩
  · simp [hold, hnew]
  · simp [hold, hnew]
  · rw [hsame]

/-- One more file is listed. -/
theorem Added.mem_files_iff (h : Added content place tree grown) (names : List Text) :
    names ∈ grown.files ↔ names ∈ tree.files ∨ names = place := by
  induction h generalizing names with
  | @here tree name new =>
    have hrows (row : Text × Entry) : row ∈ (tree.put name (.file content)).rows ↔
        row ∈ tree.rows ∨ row = (name, .file content) := by
      refine ⟨fun hrow => (mem_rows_put hrow).symm, ?_⟩
      rintro (hrow | rfl)
      · exact (mem_rows_put_of_mem name _ hrow).resolve_right fun hold => by simp [new] at hold
      · exact mem_rows_of_find? (find?_put_self _ _ _)
    cases names with
    | nil => simp [not_mem_files_nil]
    | cons first later =>
      simp only [cons_mem_files_iff, hrows, Prod.mk.injEq, Entry.file.injEq, reduceCtorEq, and_false, or_false,
        exists_or, exists_and_left, exists_eq, and_true, List.cons.injEq]
      aesop
  | @inside tree inner grown name place found later ih =>
    have hgrown : (name, .directory grown) ∈ (tree.put name (.directory grown)).rows :=
      mem_rows_of_find? (find?_put_self _ _ _)
    cases names with
    | nil => simp [not_mem_files_nil]
    | cons first names =>
      rw [cons_mem_files_iff, cons_mem_files_iff]
      constructor
      · rintro (⟨hnil, content', hrow⟩ | ⟨entries, hrow, hin⟩)
        · rcases mem_rows_put hrow with heq | hrow
          · cases heq
          · exact Or.inl (Or.inl ⟨hnil, content', hrow⟩)
        · rcases mem_rows_put hrow with heq | hrow
          · cases heq
            rcases (ih names).mp hin with hin | rfl
            · exact Or.inl (Or.inr ⟨inner, mem_rows_of_find? found, hin⟩)
            · exact Or.inr rfl
          · exact Or.inl (Or.inr ⟨entries, hrow, hin⟩)
      · rintro ((⟨hnil, content', hrow⟩ | ⟨entries, hrow, hin⟩) | heq)
        · rcases mem_rows_put_of_mem name (.directory grown) hrow with hrow | ⟨rfl, hold⟩
          · exact Or.inl ⟨hnil, content', hrow⟩
          · rw [found] at hold
            cases hold
        · rcases mem_rows_put_of_mem name (.directory grown) hrow with hrow | ⟨rfl, hold⟩
          · exact Or.inr ⟨entries, hrow, hin⟩
          · rw [found] at hold
            cases hold
            exact Or.inr ⟨grown, hgrown, (ih names).mpr (Or.inl hin)⟩
        · cases heq
          exact Or.inr ⟨grown, hgrown, (ih _).mpr (Or.inr rfl)⟩

end

end FileTree

/-! ## Following a path in two trees -/

namespace Trail

section

variable {tree other : FileTree} {trail trail' next : Trail} {here : List Text} {segment : Text}

/-- Upwards one gets from any directory. -/
theorem exists_enter_up {entries : FileTree} (hdir : trail.entry = .directory entries) :
    ∃ next, trail.enter ".." = .ok next := by
  have hfiller : Path.isFiller ".." = false := by decide
  unfold Trail.enter
  rw [hdir]
  simp only [hfiller, Bool.false_eq_true, if_false, if_true]
  cases trail.around with
  | nil => exact ⟨_, rfl⟩
  | cons outer around => exact ⟨_, rfl⟩

/-- A segment that leads on in one tree does so in another one, if there is something. -/
theorem IsAt.enter_transfer {entries : FileTree} {entry : FileTree.Entry}
    (h' : IsAt other trail' here) (hstep : trail.enter segment = .ok next)
    (hdir : trail'.entry = .directory entries)
    (hthere : other.entryAt? ((Path.component? false segment).toList.foldl Path.Component.place here) =
      some entry) : ∃ next', trail'.enter segment = .ok next' := by
  obtain ⟨inside, hinside, ⟨hfiller, -⟩ | ⟨rfl, -⟩ | ⟨hfiller, hup, -⟩⟩ := enter_cases hstep
  · exact ⟨trail', enter_filler hdir hfiller⟩
  · exact exists_enter_up hdir
  · have hfits : Path.nameFits segment = true := by
      by_contra hlong
      unfold Trail.enter at hstep
      rw [hinside] at hstep
      simp only [hfiller, if_neg hup, hlong] at hstep
      cases hstep
    have hname : Path.component? false segment = some (.name segment) := by
      rcases Path.component?_cases segment with ⟨hyes, -⟩ | ⟨hyes, -⟩ | ⟨-, -, heq⟩
      · rw [hfiller] at hyes
        cases hyes
      · exact absurd hyes hup
      · exact heq
    have hhere := h'.entryAt?
    rw [hdir] at hhere
    have hfound : entries.find? segment = some entry := by
      rw [← FileTree.entryAt?_singleton, ← FileTree.entryAt?_append hhere, ← hthere, hname]
      rfl
    refine ⟨⟨entry, entries :: trail'.around⟩, ?_⟩
    unfold Trail.enter
    rw [hdir]
    simp only [hfiller, hfits, hfound, if_neg hup]
    rfl

/-- If the directories are at the same places in both trees, a path that leads somewhere in one of them leads
to the same place in the other one, if there is something. Only directories are passed on the way. -/
theorem IsAt.foldlM_transfer {segments : List Text} {entry : FileTree.Entry}
    (same : tree.SameDirectories other) (h : IsAt tree trail here) (h' : IsAt other trail' here)
    (hrun : segments.foldlM Trail.enter trail = .ok next)
    (hthere : other.entryAt? ((segments.filterMap (Path.component? false)).foldl Path.Component.place here) =
      some entry) : ∃ next', segments.foldlM Trail.enter trail' = .ok next' := by
  induction segments generalizing trail trail' here with
  | nil => exact ⟨trail', rfl⟩
  | cons segment later ih =>
    rw [List.foldlM_cons] at hrun
    obtain ⟨middle, hstep, hrun⟩ := bind_eq_ok.mp hrun
    obtain ⟨inside, hinside, -⟩ := enter_cases hstep
    obtain ⟨inside', hinside'⟩ := (same here).mp ⟨inside, by rw [h.entryAt?, hinside]⟩
    rw [h'.entryAt?] at hinside'
    have hsplit : ((segment :: later).filterMap (Path.component? false)).foldl Path.Component.place here =
        (later.filterMap (Path.component? false)).foldl Path.Component.place
          ((Path.component? false segment).toList.foldl Path.Component.place here) := by
      cases hc : Path.component? false segment <;> simp [hc]
    rw [hsplit] at hthere
    have hmiddle := h.step hstep
    obtain ⟨found, hfound⟩ : ∃ found,
        other.entryAt? ((Path.component? false segment).toList.foldl Path.Component.place here) = some found := by
      cases later with
      | nil => exact ⟨entry, hthere⟩
      | cons second later =>
        rw [List.foldlM_cons] at hrun
        obtain ⟨_, hsecond, -⟩ := bind_eq_ok.mp hrun
        obtain ⟨passed, hpassed, -⟩ := enter_cases hsecond
        obtain ⟨passed', hpassed'⟩ := (same _).mp ⟨passed, by rw [hmiddle.entryAt?, hpassed]⟩
        exact ⟨_, hpassed'⟩
    obtain ⟨middle', hstep'⟩ := h'.enter_transfer hstep (Option.some.inj hinside') hfound
    obtain ⟨next', hnext'⟩ := ih hmiddle (h'.step hstep') hrun hthere
    exact ⟨next', by rw [List.foldlM_cons]; exact bind_eq_ok.mpr ⟨middle', hstep', hnext'⟩⟩

end

end Trail

/-! ## One more file in a workspace -/

namespace Workspace

section

variable {workspace other grown : Workspace} {path base : Text} {entry entry' : FileTree.Entry}
  {place : List Text} {content : Option Text}

theorem trail_eq_foldlM (workspace : Workspace) (path : Text) : workspace.trail path =
    (workspace.origin path ++ Path.segments path).foldlM Trail.enter (.top workspace.tree) := by
  rw [List.foldlM_append, trail, start, origin]
  split_ifs <;> rfl

/-- A path that leads somewhere in one workspace leads in another one to what stands at its location. -/
theorem entry_transfer (hnames : ∀ name ∈ workspace.current, Path.isName name = true)
    (hcurrent : other.current = workspace.current) (same : workspace.tree.SameDirectories other.tree)
    (h : workspace.entry path = .ok entry)
    (hthere : other.tree.entryAt? (workspace.location path) = some entry') :
    other.entry path = .ok entry' := by
  obtain ⟨hfits, trail, follows, -⟩ := entry_eq_ok_iff.mp h
  have horigin : other.origin path = workspace.origin path := by rw [origin, origin, hcurrent]
  have hnames : ∀ name ∈ workspace.origin path, Path.isName name = true := by
    unfold origin
    split_ifs
    · exact fun name hin => absurd hin List.not_mem_nil
    · exact hnames
  have hlocation : workspace.location path = ((workspace.origin path ++ Path.segments path).filterMap
      (Path.component? false)).foldl Path.Component.place [] := by
    rw [location_eq, List.filterMap_append, Path.filterMap_component?_names hnames, List.foldl_append,
      foldl_place_names, List.nil_append, Path.behind]
  have hreached := follows.reached
  rw [trail_eq_foldlM] at hreached
  rw [hlocation] at hthere
  obtain ⟨next, hnext⟩ := Trail.IsAt.top.foldlM_transfer same Trail.IsAt.top hreached hthere
  have hfollows : other.Follows path next :=
    ⟨follows.ne_nil, follows.noNull, by rw [trail_eq_foldlM, horigin]; exact hnext⟩
  have hat := (Trail.IsAt.top.foldlM hnext).entryAt?
  rw [hthere] at hat
  exact entry_eq_ok_iff.mpr ⟨hfits, next, hfollows, (Option.some.inj hat).symm⟩

/-- The second workspace is the first one with one more file. -/
structure Added (content : Option Text) (place : List Text) (workspace grown : Workspace) : Prop where
  names : ∀ name ∈ workspace.current, Path.isName name = true
  current : grown.current = workspace.current
  tree : FileTree.Added content place workspace.tree grown.tree

/-- What a path leads to before and after a file has been added. -/
inductive Grows (content : Option Text) (place location : List Text) :
    Except Failure FileTree.Entry → Except Failure FileTree.Entry → Prop where
  | file (content' : Option Text) : Grows content place location (.ok (.file content')) (.ok (.file content'))
  | directory (entries : FileTree) :
    Grows content place location (.ok (.directory entries)) (.ok (.directory entries))
  | inside {rest : List Text} {entries entries' : FileTree} (later : FileTree.Added content rest entries entries')
    (below : location ++ rest = place) :
    Grows content place location (.ok (.directory entries)) (.ok (.directory entries'))
  | new (failure : Failure) (here : location = place) :
    Grows content place location (.error failure) (.ok (.file content))
  | nowhere (failure failure' : Failure) : Grows content place location (.error failure) (.error failure')

theorem Added.grows (h : Added content place workspace grown) (path : Text) :
    Grows content place (workspace.location path) (workspace.entry path) (grown.entry path) := by
  have same := h.tree.sameDirectories
  have hnames : ∀ name ∈ grown.current, Path.isName name = true := h.current ▸ h.names
  have hlocation : grown.location path = workspace.location path := by rw [location, location, h.current]
  have hcases := h.tree.entryAt?_cases (workspace.location path)
  cases hold : workspace.entry path with
  | ok entry =>
    obtain ⟨-, trail, follows, rfl⟩ := entry_eq_ok_iff.mp hold
    have hat := (follows.isAt_of_names h.names).entryAt?
    rcases hcases with ⟨-, hnone, -⟩ | ⟨rest, inner, inner', hinner, hnew, hbelow, hadded⟩ | ⟨-, hsame⟩
    · rw [hnone] at hat
      cases hat
    · rw [hinner] at hat
      rw [← Option.some.inj hat, entry_transfer h.names h.current same hold hnew]
      exact .inside hadded hbelow
    · rw [entry_transfer h.names h.current same hold (hsame.trans hat)]
      cases trail.entry with
      | file content' => exact .file content'
      | directory entries => exact .directory entries
  | error failure =>
    cases hnew : grown.entry path with
    | error failure' => exact .nowhere failure failure'
    | ok entry =>
      obtain ⟨-, trail, follows, rfl⟩ := entry_eq_ok_iff.mp hnew
      have hat := (follows.isAt_of_names hnames).entryAt?
      have hback : ∀ entry, workspace.tree.entryAt? (workspace.location path) ≠ some entry := by
        intro entry hentry
        rw [entry_transfer hnames h.current.symm same.symm hnew (hlocation ▸ hentry)] at hold
        cases hold
      rw [hlocation] at hat
      rcases hcases with ⟨hhere, -, hfile⟩ | ⟨rest, inner, inner', hinner, -⟩ | ⟨-, hsame⟩
      · rw [hfile] at hat
        rw [← Option.some.inj hat]
        exact .new failure hhere
      · exact absurd hinner (hback _)
      · exact absurd (hsame.symm.trans hat) (hback _)

section

variable (h : Added content place workspace grown)

include h

theorem Added.exists?_of_exists? (hexists : workspace.exists? path = true) : grown.exists? path = true := by
  have hgrows := h.grows path
  rw [exists?, isOk_iff] at hexists ⊢
  obtain ⟨entry, hentry⟩ := hexists
  rw [hentry] at hgrows
  generalize grown.entry path = entry' at hgrows
  cases hgrows <;> exact ⟨_, rfl⟩

/-- What is there now and was not there before is the new file. -/
theorem Added.entry_of_exists? (hexists : grown.exists? path = true) (hnot : workspace.exists? path = false) :
    grown.entry path = .ok (.file content) := by
  have hgrows := h.grows path
  rw [exists?] at hexists hnot
  generalize workspace.entry path = entry at hgrows hnot
  generalize grown.entry path = entry' at hgrows hexists ⊢
  cases hgrows with
  | new => rfl
  | nowhere => cases hexists
  | file | directory | inside => cases hnot

theorem Added.isDirectory_eq (path : Text) : grown.isDirectory path = workspace.isDirectory path := by
  have hgrows := h.grows path
  rw [isDirectory, isDirectory]
  generalize workspace.entry path = entry at hgrows
  generalize grown.entry path = entry' at hgrows
  cases hgrows <;> rfl

theorem Added.read_of_file {content' : Option Text} (hentry : workspace.entry path = .ok (.file content')) :
    grown.read path = workspace.read path := by
  have hgrows := h.grows path
  rw [read, read]
  rw [hentry] at hgrows ⊢
  generalize grown.entry path = entry' at hgrows
  cases hgrows
  rfl

theorem Added.mem_filesFrom_of_mem {file : Text} (hfile : file ∈ workspace.filesFrom base) :
    file ∈ grown.filesFrom base := by
  have hgrows := h.grows base
  unfold filesFrom at hfile ⊢
  generalize workspace.entry base = entry at hgrows hfile
  generalize grown.entry base = entry' at hgrows ⊢
  cases hgrows with
  | file | directory => exact hfile
  | inside later below =>
    obtain ⟨hin, hfits⟩ := List.mem_filter.mp hfile
    obtain ⟨names, hnames, rfl⟩ := List.mem_map.mp hin
    exact List.mem_filter.mpr ⟨List.mem_map_of_mem ((later.mem_files_iff names).mpr (Or.inl hnames)), hfits⟩
  | new | nowhere => cases hfile

/-- A file below a directory is one of those before, or the new one. -/
theorem Added.mem_filesFrom (hbase : ∀ entry, grown.entry base = .ok entry → entry.isDirectory = true)
    {file : Text} (hfile : file ∈ grown.filesFrom base) :
    file ∈ workspace.filesFrom base ∨ ∃ rest, workspace.location base ++ rest = place ∧ rest ≠ [] ∧
      file = Path.join base (Path.ofSegments rest) := by
  have hgrows := h.grows base
  unfold filesFrom at hfile ⊢
  generalize workspace.entry base = entry at hgrows
  generalize grown.entry base = entry' at hgrows hfile hbase
  cases hgrows with
  | file | directory => exact Or.inl hfile
  | inside later below =>
    obtain ⟨hin, hfits⟩ := List.mem_filter.mp hfile
    obtain ⟨names, hnames, rfl⟩ := List.mem_map.mp hin
    rcases (later.mem_files_iff names).mp hnames with hold | rfl
    · exact Or.inl (List.mem_filter.mpr ⟨List.mem_map_of_mem hold, hfits⟩)
    · exact Or.inr ⟨names, below, later.ne_nil, rfl⟩
  | new => cases hbase _ rfl
  | nowhere => cases hfile

end

end

end Workspace

end Phrasebook
