import Phrasebook.Proofs.Glob.Directories
import Phrasebook.Scan

/-!
# Where a scan comes to

The paths that a scan reaches say where the files are if they start where the base starts and if none of
them leads upwards, or all do so in the base alone. They then differ in names, so that they can be
compared instead of the places that they lead to. Only a dot in front is kept by some of them and lost
by others.
-/

namespace Phrasebook.Scan

/-! ## Includes -/

/-- Whether an include stands for nothing but what lies below any base. -/
def isInner (include_ : Text) : Bool :=
  !Path.isAbsolute include_ &&
    if Glob.hasWildcard include_ then Glob.descends include_ else !Path.climbs include_

/-- Whether the paths of what an include stands for lead upwards nowhere but in the base, and start
where the base does. A base that climbs is not to be read as a pattern. -/
def keepsFront (base include_ : Text) : Bool :=
  let path := Path.join base include_
  if Path.climbs base then isInner include_ && (Glob.isPlain base || !Glob.hasWildcard include_)
  else Path.isAbsolute path == Path.isAbsolute base &&
    if Glob.hasWildcard include_ then Glob.descends path else !Path.climbs path

/-- Whether a file is reached from a directory that a glob stands for. -/
def IsGlobbed (workspace : Workspace) (base include_ file : Text) : Prop :=
  Glob.hasWildcard include_ = true ∧
    ∃ hits, Glob.directories workspace (Path.join base include_) = .ok hits ∧
      ∃ hit ∈ hits, file ∈ workspace.filesFrom hit.path

section

variable {workspace : Workspace} {base include_ file : Text} {includes : List Text}

theorem isInner_iff : isInner include_ = true ↔ Path.isAbsolute include_ = false ∧
    (Glob.hasWildcard include_ = true → Glob.descends include_ = true) ∧
    (Glob.hasWildcard include_ = false → Path.climbs include_ = false) := by
  unfold isInner
  cases Glob.hasWildcard include_ <;> simp

theorem keepsFront_of_climbs (h : Path.climbs base = true) : keepsFront base include_ = true ↔
    isInner include_ = true ∧ (Glob.hasWildcard include_ = true → Glob.isPlain base = true) := by
  unfold keepsFront
  cases Glob.hasWildcard include_ <;> simp [h]

theorem keepsFront_of_not_climbs (h : Path.climbs base = false) : keepsFront base include_ = true ↔
    Path.isAbsolute (Path.join base include_) = Path.isAbsolute base ∧
    (Glob.hasWildcard include_ = true → Glob.descends (Path.join base include_) = true) ∧
    (Glob.hasWildcard include_ = false → Path.climbs (Path.join base include_) = false) := by
  unfold keepsFront
  cases Glob.hasWildcard include_ <;> simp [h]

theorem mem_reached_placesOf_iff : file ∈ reached workspace (placesOf workspace base include_) ↔
    (Glob.hasWildcard include_ = false ∧ file ∈ workspace.filesFrom (Path.join base include_)) ∨
      IsGlobbed workspace base include_ file := by
  unfold reached placesOf IsGlobbed
  cases hwildcard : Glob.hasWildcard include_ with
  | true =>
    cases hdirectories : Glob.directories workspace (Path.join base include_) with
    | error _ => simp [hdirectories]
    | ok hits => simp [hdirectories]
  | false =>
    by_cases hexists : workspace.exists? (Path.join base include_) = true
    · simp [hexists]
    · have hnone : workspace.filesFrom (Path.join base include_) = [] := by
        unfold Workspace.exists? at hexists
        unfold Workspace.filesFrom
        cases hentry : workspace.entry (Path.join base include_) with
        | error _ => rfl
        | ok entry =>
          rw [hentry] at hexists
          exact absurd rfl hexists
      simp [hexists, hnone]

theorem mem_reached_iff : file ∈ reached workspace (places workspace base includes) ↔
    (includes = [] ∧ file ∈ workspace.filesFrom base) ∨ ∃ include_ ∈ includes,
      (Glob.hasWildcard include_ = false ∧
        file ∈ workspace.filesFrom (Path.join base include_)) ∨
      IsGlobbed workspace base include_ file := by
  simp only [← mem_reached_placesOf_iff]
  unfold places
  split
  · rename_i hnil
    simp [hnil, reached]
  · rename_i hne
    simp [hne, reached, List.flatMap_assoc]

end

/-! ## Fronts -/

/-- What all paths in a scan of `base` have in front: the base itself, if it climbs. Without a way up
all of a path is names. -/
def front (base : Text) : List Path.Component := if Path.climbs base then Path.behind base else []

/-- The path starts where the base does, and says the front and names behind it. -/
structure HasFront (base path : Text) : Prop where
  ne_nil : path ≠ []
  isAbsolute_eq : Path.isAbsolute path = Path.isAbsolute base
  names : ∃ names : List Text, Path.behind path = front base ++ names.map .name

section

variable {workspace : Workspace} {base a b : Text}

theorem HasFront.location_eq (h : HasFront base a) {names : List Text}
    (hnames : Path.behind a = front base ++ names.map .name) :
    workspace.location a = (front base).foldl Path.Component.place (workspace.origin base) ++ names := by
  rw [Workspace.location_eq, hnames, List.foldl_append, Workspace.foldl_place_names,
    Workspace.origin_congr h.isAbsolute_eq]

/-- Below one front, what lies below what shows in the paths. -/
theorem HasFront.prefix_iff (ha : HasFront base a) (hb : HasFront base b) :
    workspace.location a <+: workspace.location b ↔ Path.behind a <+: Path.behind b := by
  obtain ⟨names, hnames⟩ := ha.names
  obtain ⟨names', hnames'⟩ := hb.names
  have hname : Function.Injective Path.Component.name := fun _ _ h => Path.Component.name.inj h
  rw [ha.location_eq hnames, hb.location_eq hnames', hnames, hnames', List.prefix_append_right_inj,
    List.prefix_append_right_inj, List.prefix_map_iff_of_injective hname]

theorem HasFront.behind_eq (ha : HasFront base a) (hb : HasFront base b)
    (h : workspace.location a = workspace.location b) : Path.behind a = Path.behind b := by
  have hbelow : workspace.location a <+: workspace.location b := h ▸ List.prefix_rfl
  have habove : workspace.location b <+: workspace.location a := h ▸ List.prefix_rfl
  exact ((ha.prefix_iff hb).mp hbelow).eq_of_length_le ((hb.prefix_iff ha).mp habove).length_le

theorem HasFront.lead_eq (ha : HasFront base a) (hb : HasFront base b)
    (hdotted : Path.isDotted a = Path.isDotted b) : Path.lead a = Path.lead b := by
  rw [Path.lead, Path.lead, ha.isAbsolute_eq, hb.isAbsolute_eq, hdotted]

end

section

variable {workspace : Workspace} {base include_ other file path : Text} {includes : List Text}

theorem hasFront_of_not_climbs (hbase : Path.climbs base = false) (hne : path ≠ [])
    (habsolute : Path.isAbsolute path = Path.isAbsolute base) {names : List Text}
    (h : Path.behind path = names.map .name) : HasFront base path :=
  ⟨hne, habsolute, names, by rw [h, front, if_neg (by simp [hbase]), List.nil_append]⟩

theorem hasFront_of_climbs (hbase : Path.climbs base = true) (hne : path ≠ [])
    (habsolute : Path.isAbsolute path = Path.isAbsolute base) {names : List Text}
    (h : Path.behind path = Path.behind base ++ names.map .name) : HasFront base path :=
  ⟨hne, habsolute, names, by rw [h, front, if_pos hbase]⟩

theorem hasFront_self (hne : base ≠ []) : HasFront base base := by
  cases hclimbs : Path.climbs base with
  | false => exact hasFront_of_not_climbs hclimbs hne rfl (Path.behind_of_not_climbs hclimbs)
  | true =>
    have hnone : Path.behind base = Path.behind base ++ ([] : List Text).map .name := by simp
    exact hasFront_of_climbs hclimbs hne rfl hnone

/-- The path that a literal stands for has the front of the base, and its dot. -/
theorem hasFront_join (hne : base ≠ []) (hliteral : Glob.hasWildcard other = false)
    (hother : keepsFront base other = true) : HasFront base (Path.join base other) ∧
      Path.isDotted (Path.join base other) = Path.isDotted base := by
  cases hclimbs : Path.climbs base with
  | true =>
    obtain ⟨hrelative, -, hnot⟩ := isInner_iff.mp ((keepsFront_of_climbs hclimbs).mp hother).1
    have hbehind : Path.behind (Path.join base other) =
        Path.behind base ++ (Path.names other).map .name := by
      rw [Path.behind_join hne hrelative, Path.behind_of_not_climbs (hnot hliteral)]
    exact ⟨hasFront_of_climbs hclimbs (Path.join_ne_nil hne other)
      (Path.isAbsolute_join hne hrelative) hbehind, Path.isDotted_join hne hrelative⟩
  | false =>
    obtain ⟨habsolute, -, hnot⟩ := (keepsFront_of_not_climbs hclimbs).mp hother
    have hbehind := Path.behind_of_not_climbs (hnot hliteral)
    cases hrelative : Path.isAbsolute other with
    | false =>
      exact ⟨hasFront_of_not_climbs hclimbs (Path.join_ne_nil hne other) habsolute hbehind,
        Path.isDotted_join hne hrelative⟩
    | true =>
      -- An absolute path takes the place of the base, which is absolute then, too.
      have hjoin : Path.join base other = other := by rw [Path.join, if_pos hrelative]
      rw [hjoin] at habsolute hbehind ⊢
      rw [Path.isDotted_of_isAbsolute hrelative, Path.isDotted_of_isAbsolute (habsolute ▸ hrelative)]
      exact ⟨hasFront_of_not_climbs hclimbs (Path.ne_nil_of_isAbsolute hrelative) habsolute hbehind, rfl⟩

theorem HasFront.filesFrom (sound : workspace.isSound = true) (h : HasFront base path)
    (hin : file ∈ workspace.filesFrom path) :
    HasFront base file ∧ Path.isDotted file = Path.isDotted path := by
  obtain ⟨_, names, -, -, hnames, rfl⟩ := Workspace.exists_of_mem_filesFrom sound hin
  obtain ⟨hne, habsolute, hdotted, hbehind⟩ := Path.below_spec h.ne_nil hnames
  obtain ⟨outer, houter⟩ := h.names
  refine ⟨⟨hne, habsolute.trans h.isAbsolute_eq, outer ++ names, ?_⟩, hdotted⟩
  rw [hbehind, houter, List.append_assoc, List.map_append]

theorem hasWildcard_join (base : Text) (hwildcard : Glob.hasWildcard include_ = true) :
    Glob.hasWildcard (Path.join base include_) = true := by
  cases hother : Path.isAbsolute include_ with
  | true => rwa [Path.join, if_pos hother]
  | false =>
    simp only [Glob.hasWildcard, Bool.or_eq_true, List.contains_iff_mem] at hwildcard ⊢
    exact hwildcard.imp (Path.mem_join_of_mem hother) (Path.mem_join_of_mem hother)

/-- What a glob stands for has the front of the base, and no dot before it. -/
theorem IsGlobbed.hasFront {tree : FileTree} (sound : workspace.isSound = true)
    (hbase : workspace.entry base = .ok (.directory tree)) (hkeeps : keepsFront base include_ = true)
    (h : IsGlobbed workspace base include_ file) :
    HasFront base file ∧ Path.isDotted file = false := by
  obtain ⟨hwildcard, hits, hdirectories, hit, hhit, hin⟩ := h
  have hpath : HasFront base hit.path ∧ Path.isDotted hit.path = false := by
    cases hclimbs : Path.climbs base with
    | true =>
      obtain ⟨hinner, hplain⟩ := (keepsFront_of_climbs hclimbs).mp hkeeps
      obtain ⟨hother, hdescends, -⟩ := isInner_iff.mp hinner
      obtain ⟨hshows, hsound, patterns, segments, hpatterns, hroute, hpath⟩ :=
        Glob.exists_route_of_mem_directories sound (hplain hwildcard) hbase hother (hdescends hwildcard)
          hdirectories hhit
      obtain ⟨hdotted, habsolute, hbehind⟩ :=
        Glob.path_of_route hwildcard hpatterns hsound hroute hshows hpath
      exact ⟨hasFront_of_climbs hclimbs hshows.ne_nil habsolute hbehind, hdotted⟩
    | false =>
      obtain ⟨habsolute, hdescends, -⟩ := (keepsFront_of_not_climbs hclimbs).mp hkeeps
      obtain ⟨hdotted, hshows, hsame, names, hbehind⟩ := Glob.behind_of_mem_directories sound
        (hdescends hwildcard) (hasWildcard_join base hwildcard) hdirectories hhit
      exact ⟨hasFront_of_not_climbs hclimbs hshows.ne_nil (hsame.trans habsolute) hbehind, hdotted⟩
  obtain ⟨hfront, hdotted⟩ := hpath.1.filesFrom sound hin
  exact ⟨hfront, hdotted.trans hpath.2⟩

/-- All that is reached has the same front. With a dot in front of the base, what a glob stands for
has lost it and all else has kept it. -/
theorem hasFront_of_mem_reached (sound : workspace.isSound = true)
    (hbase : workspace.isDirectory base = true)
    (hincludes : ∀ include_ ∈ includes, keepsFront base include_ = true)
    (hin : file ∈ reached workspace (places workspace base includes)) :
    HasFront base file ∧ (Path.isDotted file = Path.isDotted base ∨
      Path.isDotted file = false ∧ ∃ include_ ∈ includes, IsGlobbed workspace base include_ file) := by
  obtain ⟨tree, hentry⟩ := Workspace.isDirectory_iff.mp hbase
  obtain ⟨-, trail, hfollows, -⟩ := Workspace.entry_eq_ok_iff.mp hentry
  rcases mem_reached_iff.mp hin with ⟨-, hin⟩ | ⟨include_, hinclude, hcases⟩
  · exact ((hasFront_self hfollows.ne_nil).filesFrom sound hin).imp_right Or.inl
  · have hkeeps := hincludes include_ hinclude
    rcases hcases with ⟨hliteral, hin⟩ | hglobbed
    · obtain ⟨hfront, hdotted⟩ := hasFront_join hfollows.ne_nil hliteral hkeeps
      obtain ⟨hfile, hsame⟩ := hfront.filesFrom sound hin
      exact ⟨hfile, Or.inl (hsame.trans hdotted)⟩
    · obtain ⟨hfront, hdotted⟩ := hglobbed.hasFront sound hentry hkeeps
      exact ⟨hfront, Or.inr ⟨hdotted, include_, hinclude, hglobbed⟩⟩

end

end Phrasebook.Scan
