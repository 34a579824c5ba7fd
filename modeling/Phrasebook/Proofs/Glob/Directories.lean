import Phrasebook.Proofs.Glob.Components
import Phrasebook.Proofs.Glob.Search

/-!
# Directories for a pattern behind a base

If the base is plain, the search first follows it as a path and then takes the steps of the pattern
alone. What it finds are the directories at the ends of the routes from the base, each by the path that
the components of the base and the segments of the route make up.
-/

namespace Phrasebook.Glob

open FileTree (Entry)

/-! ## Following a base -/

section

variable {workspace : Workspace} {hits : List Hit} {first next last : Hit} {segment : Text}
  {segments : List Text}

theorem search_append (workspace : Workspace) (before after : List Step) (hits : List Hit) :
    search workspace (before ++ after) hits = search workspace after (search workspace before hits) := by
  induction before generalizing hits with
  | nil => rfl
  | cons step before ih => exact ih _

theorem exists_of_mem_advance_literal (hslash : '/' ∉ segment)
    (hshows : ∀ hit ∈ hits, Shows workspace hit.path hit.entry)
    (hnext : next ∈ advance workspace (.literal segment) hits) :
    Shows workspace next.path next.entry ∧ ∃ hit ∈ hits, next.path = pathOf hit.path segment := by
  obtain ⟨hit, hhit, taken, htaken, hpath, hentry⟩ := exists_of_mem_advance hnext
  obtain ⟨hshown, htext, -⟩ := exists_of_mem_literal (hshows hit hhit) hslash htaken
  rw [← hpath, ← hentry]
  exact ⟨hshown, hit, hhit, htext⟩

/-- Looking up one segment after the other leads along a path. -/
theorem exists_of_mem_search_literals (hslash : ∀ segment ∈ segments, '/' ∉ segment)
    (hshows : ∀ hit ∈ hits, Shows workspace hit.path hit.entry)
    (hlast : last ∈ search workspace (segments.map .literal) hits) :
    Shows workspace last.path last.entry ∧ ∃ first ∈ hits, last.path = segments.foldl pathOf first.path := by
  induction segments generalizing hits with
  | nil => exact ⟨hshows last hlast, last, hlast, rfl⟩
  | cons segment segments ih =>
    rw [List.forall_mem_cons] at hslash
    have hstep (next : Hit) (hnext : next ∈ advance workspace (.literal segment) hits) :=
      exists_of_mem_advance_literal hslash.1 hshows hnext
    obtain ⟨hend, next, hnext, hlater⟩ := ih hslash.2 (fun next hnext => (hstep next hnext).1) hlast
    obtain ⟨-, hit, hhit, hpath⟩ := hstep next hnext
    exact ⟨hend, hit, hhit, by rw [hlater, hpath, List.foldl_cons]⟩

theorem exists_mem_advance_literal {trail following : Trail} (hslash : '/' ∉ segment)
    (hnull : '\x00' ∉ segment) (hne : segment ≠ [] ∨ Path.isCurrent first.path = false)
    (hfirst : first ∈ hits) (hfollows : workspace.Follows first.path trail)
    (hnext : trail.enter segment = .ok following)
    (room : Text.byteLength first.path + (Text.byteLength segment + 1) ≤ Path.maxBytes) :
    ∃ next ∈ advance workspace (.literal segment) hits, workspace.Follows next.path following ∧
      next.path = pathOf first.path segment := by
  have hreached := follows_pathOf hfollows hne hslash hnull hnext
  have hlength := byteLength_pathOf_le first.path segment
  have hfits : Path.fits (pathOf first.path segment) = true := decide_eq_true (by omega)
  have htaken : ⟨pathOf first.path segment, following.entry, 1⟩ ∈
      (Step.literal segment).take workspace first :=
    mem_hitsAt_iff.mpr ⟨Workspace.entry_eq_ok_iff.mpr ⟨hfits, following, hreached, rfl⟩, rfl, rfl⟩
  obtain ⟨next, hin, hpath⟩ := exists_mem_advance hfirst htaken hfits
  have hpath : next.path = pathOf first.path segment := hpath
  exact ⟨next, hin, by rw [hpath]; exact hreached, hpath⟩

/-- A segment that says something leads away from the current directory. -/
theorem isCurrent_pathOf_of_not_isFiller (path : Text) (hslash : '/' ∉ segment)
    (h : Path.isFiller segment = false) : Path.isCurrent (pathOf path segment) = false := by
  refine Path.isCurrent_of_behind_ne_nil ?_
  rw [behind_pathOf path hslash]
  rcases Path.component?_cases segment with ⟨hfiller, -⟩ | ⟨-, heq⟩ | ⟨-, -, heq⟩
  · rw [h] at hfiller
    cases hfiller
  · simp [heq]
  · simp [heq]

/-- Where a path leads there is a hit, unless an empty segment has to be followed from the current
directory. -/
theorem exists_mem_search_literals {trail final : Trail}
    (hslash : ∀ segment ∈ segments, '/' ∉ segment) (hnull : ∀ segment ∈ segments, '\x00' ∉ segment)
    (hfirst : first ∈ hits)
    (hgap : Path.isCurrent first.path = false ∨
      (∀ segment ∈ segments.head?, Path.isFiller segment = false) ∨ [] ∉ segments)
    (hfollows : workspace.Follows first.path trail)
    (hfinal : segments.foldlM Trail.enter trail = .ok final)
    (room : Text.byteLength first.path +
      (segments.map fun segment => Text.byteLength segment + 1).sum ≤ Path.maxBytes) :
    ∃ last ∈ search workspace (segments.map .literal) hits,
      last.path = segments.foldl pathOf first.path := by
  induction segments generalizing hits first trail with
  | nil => exact ⟨first, hfirst, rfl⟩
  | cons segment segments ih =>
    rw [List.forall_mem_cons] at hslash hnull
    rw [List.foldlM_cons] at hfinal
    simp only [List.map_cons, List.sum_cons] at room
    obtain ⟨following, hnext, hfinal⟩ := bind_eq_ok.mp hfinal
    -- Shown from `.`, an empty segment would be an empty path, which leads nowhere.
    have hne : segment ≠ [] ∨ Path.isCurrent first.path = false := by
      refine hgap.symm.imp_left fun h hnil => ?_
      rcases h with h | h
      · simpa [hnil, Path.isFiller] using h segment rfl
      · exact h (List.mem_cons.mpr (Or.inl hnil.symm))
    obtain ⟨next, hin, hreached, hpath⟩ :=
      exists_mem_advance_literal hslash.1 hnull.1 hne hfirst hfollows hnext (by omega)
    have hmore : Path.isCurrent next.path = false ∨
        (∀ segment ∈ segments.head?, Path.isFiller segment = false) ∨ [] ∉ segments := by
      rw [hpath]
      rcases hgap with h | h | h
      · exact Or.inl (pathOf_ne_nil hfollows.ne_nil h hslash.1).2
      · exact Or.inl (isCurrent_pathOf_of_not_isFiller _ hslash.1 (h segment rfl))
      · exact Or.inr (Or.inr (mt (List.mem_cons_of_mem _) h))
    have hlength := byteLength_pathOf_le first.path segment
    rw [← hpath] at hlength
    obtain ⟨last, hlast, hlater⟩ := ih hslash.2 hnull.2 hin hmore hreached hfinal (by omega)
    exact ⟨last, hlast, by rw [hlater, hpath, List.foldl_cons]⟩

end

/-! ## The directories -/

/-- Whether a pattern stands for nothing but what is further down. -/
def descends (text : Text) : Bool :=
  match (componentTexts text).mapM compile with
  | .ok patterns => (steps patterns).all Step.descends
  | .error _ => true

section

variable {workspace : Workspace} {base other text path : Text} {hits : List Hit} {hit : Hit}
  {patterns : List Pattern} {tree inner : FileTree} {entry here : Entry} {segments : List Text}

theorem descends_of_compileComponents (hdescends : descends text = true)
    (h : compileComponents text = .ok patterns) : ∀ step ∈ steps patterns, step.descends = true := by
  rw [descends, (compileComponents_eq_ok_iff.mp h).2] at hdescends
  exact List.all_eq_true.mp hdescends

theorem isAbsolute_origin (text : Text) : Path.isAbsolute (origin text) = Path.isAbsolute text := by
  unfold origin
  split
  · rename_i h
    rw [h]
    rfl
  · rename_i h
    rw [Bool.not_eq_true] at h
    rw [h]
    rfl

theorem behind_origin (text : Text) : Path.behind (origin text) = [] := by
  unfold origin
  split <;> decide

theorem origin_congr (h : Path.isAbsolute text = Path.isAbsolute other) : origin text = origin other := by
  rw [origin, origin, h]

theorem shows_of_mem_hitsAt_origin (h : hit ∈ hitsAt workspace (origin text)) :
    Shows workspace hit.path hit.entry ∧ hit.path = origin text := by
  obtain ⟨hentry, hpath, -⟩ := mem_hitsAt_iff.mp h
  rw [hpath]
  refine ⟨⟨(Workspace.entry_eq_ok_iff.mp hentry).2, ?_⟩, rfl⟩
  unfold origin
  split <;> decide

theorem mem_directories (h : directories workspace text = .ok hits) (hin : hit ∈ hits) :
    ∃ patterns, compileComponents text = .ok patterns ∧
      hit ∈ search workspace (steps patterns) (hitsAt workspace (origin text)) ∧
        hit.entry.isDirectory = true := by
  unfold directories at h
  cases hcompile : compileComponents text with
  | error _ =>
    rw [hcompile] at h
    cases h
  | ok patterns =>
    rw [hcompile] at h
    cases h
    exact ⟨patterns, rfl, List.mem_filter.mp hin⟩

theorem Shows.isDotted_eq_false (h : Shows workspace path entry) (hne : Path.behind path ≠ []) :
    Path.isDotted path = false := by
  by_contra hdotted
  have hcurrent := h.current (by simpa using hdotted)
  rw [Path.isCurrent_of_behind_ne_nil hne] at hcurrent
  cases hcurrent

/-- Paths that start at the same place and say the same lead to the same. -/
theorem Shows.eq_of_behind (sound : workspace.isSound = true) (h : Shows workspace path entry)
    (hbase : workspace.entry base = .ok here) (habsolute : Path.isAbsolute path = Path.isAbsolute base)
    (hbehind : Path.behind path = Path.behind base) : entry = here := by
  obtain ⟨trail, hfollows, hentry⟩ := h.reached
  have hat := (hfollows.isAt sound).entryAt?
  have hat' := Workspace.entryAt?_location sound hbase
  rw [Workspace.location_eq, hbehind, Workspace.origin_congr habsolute, ← Workspace.location_eq, hat',
    hentry] at hat
  exact (Option.some.inj hat).symm

theorem exists_step_of_hasWildcard (hwildcard : hasWildcard text = true)
    (h : compileComponents text = .ok patterns) : ∃ step ∈ steps patterns, step.isLiteral = false :=
  exists_step_of_mem (exists_pattern_of_hasWildcard hwildcard (compileComponents_eq_ok_iff.mp h).2)

/-- The directories for a pattern that only descends have paths of names alone. -/
theorem behind_of_mem_directories (sound : workspace.isSound = true) (hdescends : descends text = true)
    (hwildcard : hasWildcard text = true) (h : directories workspace text = .ok hits)
    (hin : hit ∈ hits) :
    Path.isDotted hit.path = false ∧ Shows workspace hit.path hit.entry ∧
      Path.isAbsolute hit.path = Path.isAbsolute text ∧
      ∃ names : List Text, Path.behind hit.path = names.map .name := by
  obtain ⟨patterns, hcompile, hsearch, -⟩ := mem_directories h hin
  obtain ⟨hshows, first, hfirst, segments, hroute, hpath⟩ := exists_route_of_mem_search sound
    (descends_of_compileComponents hdescends hcompile)
    (fun hit hin => (shows_of_mem_hitsAt_origin hin).1) hsearch
  obtain ⟨hshown, horigin⟩ := shows_of_mem_hitsAt_origin hfirst
  have hsound := hshown.isSound_entry sound
  have hbehind := hroute.behind_foldl hsound first.path
  have habsolute := hroute.isAbsolute_foldl hsound first.path
  rw [← hpath, horigin] at hbehind habsolute
  rw [behind_origin, List.nil_append] at hbehind
  have hne := hroute.namesOf_ne_nil hsound (exists_step_of_hasWildcard hwildcard hcompile)
  exact ⟨hshows.isDotted_eq_false (by simp [hbehind, hne]), hshows,
    habsolute.trans (isAbsolute_origin text), _, hbehind⟩

theorem filterMap_component?_componentTexts (text : Text) :
    (componentTexts text).filterMap (Path.component? false) = Path.behind text := by
  have hnone : Path.component? false [] = none := by decide
  rcases segments_eq_componentTexts text with heq | heq <;> rw [Path.behind, heq]
  rw [List.filterMap_append, List.filterMap_cons_none hnone, List.filterMap_nil, List.append_nil]

theorem isFiller_head?_componentTexts (hbase : base ≠ []) (hrelative : Path.isAbsolute base = false)
    (hdotted : Path.isDotted base = false) :
    ∀ segment ∈ (componentTexts base).head?, Path.isFiller segment = false := by
  intro segment hhead
  obtain ⟨leading, others, hsegments⟩ := Path.exists_segments base
  have hleading : segment = leading := by
    obtain ⟨later, heq⟩ := List.head?_eq_some_iff.mp hhead
    rcases segments_eq_componentTexts base with h | h <;> rw [h, heq] at hsegments <;>
      cases hsegments <;> rfl
  have hne := Path.leading_ne_nil hbase hrelative hsegments
  rw [hleading, Path.isFiller, Bool.or_eq_false_iff, decide_eq_false_iff_not, decide_eq_false_iff_not]
  refine ⟨hne, fun hdot => ?_⟩
  have hcurrent : Path.component? true leading = some .current := by
    rw [hdot]
    decide
  rw [Path.isDotted, Path.components_of_segments hbase hsegments, hcurrent] at hdotted
  simp at hdotted

/-- A path is followed from where the search starts, and an empty segment at its end adds nothing. -/
theorem exists_foldlM_componentTexts {trail : Trail} (h : workspace.Follows base trail) :
    ∃ start final, workspace.Follows (origin base) start ∧
      (componentTexts base).foldlM Trail.enter start = .ok final := by
  obtain ⟨start, hstart, hreached⟩ := Workspace.trail_eq_ok_iff.mp h.reached
  obtain ⟨leading, others, hsegments⟩ := Path.exists_segments base
  have hdirectory : ∃ entries, start.entry = .directory entries := by
    rw [hsegments, List.foldlM_cons] at hreached
    obtain ⟨next, hnext, -⟩ := bind_eq_ok.mp hreached
    obtain ⟨entries, hentries, -⟩ := Trail.enter_cases hnext
    exact ⟨entries, hentries⟩
  obtain ⟨entries, hentries⟩ := hdirectory
  have hstart' : workspace.start (origin base) = .ok start :=
    (Workspace.start_congr (isAbsolute_origin base)).trans hstart
  have hfillers : ∀ segment ∈ Path.segments (origin base), Path.isFiller segment = true :=
    Path.isFiller_of_behind_eq_nil (behind_origin base)
  have horigin : origin base ≠ [] ∧ '\x00' ∉ origin base := by
    unfold origin
    split <;> decide
  obtain ⟨final, hfinal⟩ : ∃ final, (componentTexts base).foldlM Trail.enter start = .ok final := by
    rcases segments_eq_componentTexts base with heq | heq <;> rw [heq] at hreached
    · exact ⟨trail, hreached⟩
    · rw [List.foldlM_append] at hreached
      obtain ⟨final, hfinal, -⟩ := bind_eq_ok.mp hreached
      exact ⟨final, hfinal⟩
  exact ⟨start, final,
    ⟨horigin.1, horigin.2, Workspace.trail_of_fillers hstart' hentries hfillers⟩, hfinal⟩

/-! ## Behind a base -/

/-- The hits on a plain base: a search follows it from where it starts. -/
def hitsOn (workspace : Workspace) (base : Text) : List Hit :=
  search workspace ((componentTexts base).map .literal) (hitsAt workspace (origin base))

/-- The path by which a search shows a plain base. -/
def shown (base : Text) : Text := (componentTexts base).foldl pathOf (origin base)

theorem not_mem_of_mem_componentTexts {component : Text} (h : component ∈ componentTexts text) :
    '/' ∉ component :=
  Text.not_mem_of_mem_pieces (mem_segments_of_mem_componentTexts h)

theorem behind_shown (base : Text) : Path.behind (shown base) = Path.behind base := by
  rw [shown, behind_foldl_pathOf _ fun _ => not_mem_of_mem_componentTexts, behind_origin,
    List.nil_append, filterMap_component?_componentTexts]

theorem isAbsolute_shown (base : Text) : Path.isAbsolute (shown base) = Path.isAbsolute base := by
  rw [shown, isAbsolute_foldl_pathOf _ fun _ => not_mem_of_mem_componentTexts, isAbsolute_origin]

/-- Only a base with a dot in front can be the current directory. -/
theorem isCurrent_shown (hne : base ≠ []) (hdotted : Path.isDotted base = false) :
    Path.isCurrent (shown base) = false := by
  cases habsolute : Path.isAbsolute base with
  | true =>
    by_contra hcurrent
    have hrelative := Path.isAbsolute_of_isCurrent (by simpa using hcurrent)
    rw [isAbsolute_shown, habsolute] at hrelative
    cases hrelative
  | false =>
    refine Path.isCurrent_of_behind_ne_nil ?_
    rw [behind_shown]
    exact Path.behind_ne_nil hne habsolute hdotted

theorem shows_of_mem_hitsOn (h : hit ∈ hitsOn workspace base) :
    Shows workspace hit.path hit.entry ∧ hit.path = shown base := by
  obtain ⟨hshows, first, hfirst, hpath⟩ := exists_of_mem_search_literals
    (fun _ => not_mem_of_mem_componentTexts) (fun hit hin => (shows_of_mem_hitsAt_origin hin).1) h
  rw [(shows_of_mem_hitsAt_origin hfirst).2] at hpath
  exact ⟨hshows, hpath⟩

theorem entry_of_mem_hitsOn (sound : workspace.isSound = true) (hbase : workspace.entry base = .ok here)
    (h : hit ∈ hitsOn workspace base) : hit.entry = here := by
  obtain ⟨hshows, hpath⟩ := shows_of_mem_hitsOn h
  exact hshows.eq_of_behind sound hbase (hpath ▸ isAbsolute_shown base) (hpath ▸ behind_shown base)

theorem byteLength_shown_le (base : Text) :
    Text.byteLength (shown base) ≤ Text.byteLength base + 2 := by
  have hpath := byteLength_foldl_pathOf_le (origin base) (componentTexts base)
  have hcomponents := sum_componentTexts_le base
  have hone : Text.byteLength (origin base) = 1 := by
    unfold origin
    split <;> decide
  rw [shown]
  omega

theorem exists_mem_hitsOn (hbase : workspace.entry base = .ok here)
    (hgap : Path.isDotted base = false ∨ [] ∉ componentTexts base)
    (room : Text.byteLength base + 2 ≤ Path.maxBytes) : ∃ hit, hit ∈ hitsOn workspace base := by
  obtain ⟨-, trail, hfollows, -⟩ := Workspace.entry_eq_ok_iff.mp hbase
  obtain ⟨start, final, hstart, hfinal⟩ := exists_foldlM_componentTexts hfollows
  have hone : Text.byteLength (origin base) = 1 := by
    unfold origin
    split <;> decide
  have horigin : ⟨origin base, start.entry, 1⟩ ∈ hitsAt workspace (origin base) :=
    mem_hitsAt_iff.mpr ⟨Workspace.entry_eq_ok_iff.mpr
      ⟨decide_eq_true (by omega), start, hstart, rfl⟩, rfl, rfl⟩
  have hnull (segment : Text) (hin : segment ∈ componentTexts base) : '\x00' ∉ segment := fun h =>
    hfollows.noNull (Text.mem_of_mem_pieces (mem_segments_of_mem_componentTexts hin) h)
  have hcomponents := sum_componentTexts_le base
  have hgap' : Path.isCurrent (origin base) = false ∨
      (∀ segment ∈ (componentTexts base).head?, Path.isFiller segment = false) ∨
        [] ∉ componentTexts base := by
    cases habsolute : Path.isAbsolute base with
    | true =>
      left
      rw [origin, if_pos habsolute]
      decide
    | false =>
      exact Or.inr (hgap.imp_left (isFiller_head?_componentTexts hfollows.ne_nil habsolute))
  obtain ⟨hit, hhit, -⟩ := exists_mem_search_literals (fun _ => not_mem_of_mem_componentTexts) hnull
    horigin hgap' hstart hfinal (by simp only [hone]; omega)
  exact ⟨hit, hhit⟩

/-- Behind a plain base the search goes on from the hits on the base. -/
theorem directories_join_eq_ok_iff (hplain : isPlain base = true) (hne : base ≠ [])
    (hother : Path.isAbsolute other = false) :
    directories workspace (Path.join base other) = .ok hits ↔
      ∃ patterns, compileComponents other = .ok patterns ∧
        hits = (search workspace (steps patterns) (hitsOn workspace base)).filter
          fun hit => hit.entry.isDirectory := by
  have hsearch (patterns : List Pattern) :
      search workspace (steps ((componentTexts base).map (List.map .char) ++ patterns))
        (hitsAt workspace (origin base)) = search workspace (steps patterns) (hitsOn workspace base) := by
    rw [steps_append_plain, search_append, hitsOn]
  unfold directories
  rw [origin_congr (Path.isAbsolute_join hne hother), bind_eq_ok]
  constructor
  · rintro ⟨_, hcompile, h⟩
    obtain ⟨patterns, hpatterns, rfl⟩ := (compileComponents_join_iff hplain hne hother).mp hcompile
    rw [hsearch] at h
    exact ⟨patterns, hpatterns, (Except.ok.inj h).symm⟩
  · rintro ⟨patterns, hpatterns, rfl⟩
    refine ⟨_, (compileComponents_join_iff hplain hne hother).mpr ⟨patterns, hpatterns, rfl⟩, ?_⟩
    rw [hsearch]
    rfl

/-- Behind a plain base the directories are at the ends of the routes of the pattern alone. -/
theorem exists_route_of_mem_directories (sound : workspace.isSound = true)
    (hplain : isPlain base = true) (hbase : workspace.entry base = .ok here)
    (hother : Path.isAbsolute other = false) (hdescends : descends other = true)
    (h : directories workspace (Path.join base other) = .ok hits) (hin : hit ∈ hits) :
    Shows workspace hit.path hit.entry ∧ IsSound here ∧
      ∃ patterns segments, compileComponents other = .ok patterns ∧
        Route (steps patterns) here segments hit.entry ∧ hit.path = segments.foldl pathOf (shown base) := by
  obtain ⟨-, trail, hfollows, -⟩ := Workspace.entry_eq_ok_iff.mp hbase
  obtain ⟨patterns, hpatterns, rfl⟩ :=
    (directories_join_eq_ok_iff hplain hfollows.ne_nil hother).mp h
  obtain ⟨hshows, first, hfirst, segments, hroute, hpath⟩ := exists_route_of_mem_search sound
    (descends_of_compileComponents hdescends hpatterns) (fun hit hin => (shows_of_mem_hitsOn hin).1)
    (List.mem_filter.mp hin).1
  obtain ⟨hshown, hsame⟩ := shows_of_mem_hitsOn hfirst
  have hhere := entry_of_mem_hitsOn sound hbase hfirst
  rw [hhere] at hroute
  rw [hsame] at hpath
  exact ⟨hshows, hhere ▸ hshown.isSound_entry sound, patterns, segments, hpatterns, hroute, hpath⟩

/-- The path of such a directory is the base with the names of the route, and has no dot in front. -/
theorem path_of_route (hwildcard : hasWildcard other = true)
    (hpatterns : compileComponents other = .ok patterns) (hsound : IsSound here)
    (hroute : Route (steps patterns) here segments hit.entry) (hshows : Shows workspace hit.path hit.entry)
    (hpath : hit.path = segments.foldl pathOf (shown base)) :
    Path.isDotted hit.path = false ∧ Path.isAbsolute hit.path = Path.isAbsolute base ∧
      Path.behind hit.path = Path.behind base ++ (namesOf segments).map .name := by
  have hbehind := hroute.behind_foldl hsound (shown base)
  have habsolute := hroute.isAbsolute_foldl hsound (shown base)
  rw [← hpath] at hbehind habsolute
  rw [behind_shown] at hbehind
  have hne := hroute.namesOf_ne_nil hsound (exists_step_of_hasWildcard hwildcard hpatterns)
  exact ⟨hshows.isDotted_eq_false (by simp [hbehind, hne]), habsolute.trans (isAbsolute_shown base),
    hbehind⟩

/-- And where such a route ends at a directory there is a hit, if there is room for its path. -/
theorem exists_mem_directories_of_route (sound : workspace.isSound = true)
    (hplain : isPlain base = true) (hgap : Path.isDotted base = false ∨
      [] ∉ componentTexts base ∧ [] ∉ componentTexts other)
    (hbase : workspace.entry base = .ok (.directory tree)) (hother : Path.isAbsolute other = false)
    (hdescends : descends other = true) (hcompile : compileComponents other = .ok patterns)
    (hroute : Route (steps patterns) (.directory tree) segments (.directory inner))
    (room : Text.byteLength base + Text.byteLength other + tree.span + 3 ≤ Path.maxBytes) :
    ∃ hits, directories workspace (Path.join base other) = .ok hits ∧ ∃ hit ∈ hits,
      hit.entry = .directory inner ∧ hit.path = segments.foldl pathOf (shown base) ∧
      Text.byteLength hit.path + inner.span ≤ Path.maxBytes := by
  obtain ⟨-, trail, hfollows, -⟩ := Workspace.entry_eq_ok_iff.mp hbase
  have hne := hfollows.ne_nil
  have hmapM := (compileComponents_eq_ok_iff.mp hcompile).2
  obtain ⟨first, hfirst⟩ := exists_mem_hitsOn hbase (hgap.imp_right And.left) (by omega)
  have hentry := entry_of_mem_hitsOn sound hbase hfirst
  have hpath := (shows_of_mem_hitsOn hfirst).2
  have hmore : Path.isCurrent first.path = false ∨ .literal [] ∉ steps patterns := by
    rw [hpath]
    exact hgap.imp (isCurrent_shown hne) fun h hstep => h.2 (mem_of_literal_mem_steps hmapM hstep)
  have hlength := byteLength_shown_le base
  have hpadding := (sum_padding_steps_le patterns).trans (sum_padding_le hmapM)
  have hcomponents := sum_componentTexts_le other
  obtain ⟨last, hlast, hend, hsegments, hfits⟩ := exists_mem_search_of_route sound
    (descends_of_compileComponents hdescends hcompile)
    (fun hit hin => (shows_of_mem_hitsOn hin).1) hfirst hmore (by rw [hentry]; exact hroute)
    (by rw [hentry, Entry.span, hpath]; omega)
  refine ⟨_, (directories_join_eq_ok_iff hplain hne hother).mpr ⟨patterns, hcompile, rfl⟩, last, ?_,
    hend, by rw [hsegments, hpath], hfits⟩
  exact List.mem_filter.mpr ⟨hlast, by rw [hend]; rfl⟩

end

end Phrasebook.Glob
