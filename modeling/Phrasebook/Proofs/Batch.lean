import Mathlib.Algebra.GroupWithZero.Nat
import Mathlib.Data.List.Sort
import Phrasebook.Batch
import Phrasebook.Proofs.Text.Order

/-!
# A batch is the sum of its files

What a file yields does not depend on the files around it, and the batch puts what they yield together
in the byte order of the paths by which they are shown. So the order in which the files are given says
nothing, as long as no two are shown alike.
-/

namespace Phrasebook.Batch

/-! ## One file -/

/-- What there is to be said of the file at `path`, as the batch of this file alone. -/
inductive Yields (workspace : Workspace) (config : Config) (root path : Text) : Batch → Prop where
  | phrases {engine : Engine} {source : Text} {phrases : List Phrase}
    (handled : config.engine? path = some engine) (read : workspace.read path = .ok source)
    (found : engine.phrases config.rules source = .ok phrases) :
    Yields workspace config root path
      ⟨phrases.map fun phrase => ⟨shownPath root path, phrase⟩, [], 1⟩
  | unreadable {engine : Engine} {failure : Workspace.Failure}
    (handled : config.engine? path = some engine) (read : workspace.read path = .error failure) :
    Yields workspace config root path ⟨[], [⟨shownPath root path, .unreadable failure⟩], 1⟩
  | fault {engine : Engine} {source : Text} {fault : Fault}
    (handled : config.engine? path = some engine) (read : workspace.read path = .ok source)
    (found : engine.phrases config.rules source = .error fault) :
    Yields workspace config root path ⟨[], [⟨shownPath root path, .fault fault⟩], 1⟩
  | unhandled (none : config.engine? path = none) : Yields workspace config root path ⟨[], [], 0⟩

section

variable {workspace : Workspace} {config : Config} {root path : Text} {outcome : Outcome}

@[simp] theorem isSome_outcome? :
    (outcome? workspace config root path).isSome = config.handles path := by
  simp [outcome?, Config.handles]

theorem path_of_outcome? (h : outcome? workspace config root path = some outcome) :
    outcome.path = shownPath root path := by
  unfold outcome? at h
  obtain ⟨engine, -, rfl⟩ := Option.map_eq_some_iff.mp h
  rfl

theorem ofOutcomes_singleton : ofOutcomes [outcome] = ⟨outcome.phrases, outcome.failure?.toList, 1⟩ := by
  cases h : outcome.failure? <;> simp [ofOutcomes, h]

theorem run_singleton_of_outcome? (h : outcome? workspace config root path = some outcome) :
    run workspace config root [path] = ⟨outcome.phrases, outcome.failure?.toList, 1⟩ := by
  rw [run, List.filterMap_cons_some h, List.filterMap_nil, ofOutcomes_singleton]

theorem run_singleton_of_unhandled (h : config.engine? path = none) :
    run workspace config root [path] = ⟨[], [], 0⟩ := by
  have hnone : outcome? workspace config root path = none := by simp [outcome?, h]
  rw [run, List.filterMap_cons_none hnone]
  simp [ofOutcomes]

theorem yields_run_singleton (workspace : Workspace) (config : Config) (root path : Text) :
    Yields workspace config root path (run workspace config root [path]) := by
  cases handled : config.engine? path with
  | none =>
    rw [run_singleton_of_unhandled handled]
    exact .unhandled handled
  | some engine =>
    have outcome_eq (result : Except Failure.Cause (List Phrase))
        (h : (do let source ← (workspace.read path).mapError .unreadable
                 (engine.phrases config.rules source).mapError .fault) = result) :
        run workspace config root [path] =
          ⟨(Outcome.mk (shownPath root path) result).phrases,
            (Outcome.mk (shownPath root path) result).failure?.toList, 1⟩ :=
      run_singleton_of_outcome? (by rw [outcome?, handled, Option.map_some, h])
    cases read : workspace.read path with
    | error failure =>
      rw [outcome_eq (.error (.unreadable failure)) (by rw [read]; rfl)]
      exact .unreadable handled read
    | ok source =>
      cases found : engine.phrases config.rules source with
      | error fault =>
        rw [outcome_eq (.error (.fault fault)) (by rw [read]; exact congrArg (Except.mapError Failure.Cause.fault) found)]
        exact .fault handled read found
      | ok phrases =>
        rw [outcome_eq (.ok phrases) (by rw [read]; exact congrArg (Except.mapError Failure.Cause.fault) found)]
        exact .phrases handled read found

end

/-! ## The order of the outcomes -/

theorem Outcome.le_iff {a b : Outcome} : a.le b = true ↔ ¬ b.path < a.path := by
  simp [Outcome.le]

theorem Outcome.le_trans (a b c : Outcome) (hab : a.le b = true) (hbc : b.le c = true) :
    a.le c = true := by
  rw [Outcome.le_iff] at *
  exact List.le_trans hab hbc

theorem Outcome.le_total (a b : Outcome) : (a.le b || b.le a) = true := by
  rw [Bool.or_eq_true, Outcome.le_iff, Outcome.le_iff]
  exact List.le_total a.path b.path

/-- Outcomes that are shown under different paths have one order only. -/
theorem mergeSort_eq_of_perm {all others : List Outcome} (perm : all.Perm others)
    (distinct : (all.map Outcome.path).Nodup) :
    others.mergeSort Outcome.le = all.mergeSort Outcome.le := by
  have hperm : (others.mergeSort Outcome.le).Perm all := (List.mergeSort_perm _ _).trans perm.symm
  refine List.Perm.eq_of_pairwise ?_ (List.pairwise_mergeSort Outcome.le_trans Outcome.le_total _)
    (List.pairwise_mergeSort Outcome.le_trans Outcome.le_total _)
    (hperm.trans (List.mergeSort_perm _ _).symm)
  intro a b ha hb hab hba
  rw [Outcome.le_iff] at hab hba
  exact List.inj_on_of_nodup_map distinct (hperm.mem_iff.mp ha) (List.mem_mergeSort.mp hb)
    (List.le_antisymm hab hba)

section

variable {workspace : Workspace} {config : Config} {root : Text} {paths : List Text}

theorem map_path_outcomes (paths : List Text) :
    (paths.filterMap (outcome? workspace config root)).map Outcome.path =
      (paths.filter config.handles).map (shownPath root) := by
  induction paths with
  | nil => rfl
  | cons path paths ih =>
    have hsome : (outcome? workspace config root path).isSome = config.handles path := isSome_outcome?
    cases h : outcome? workspace config root path with
    | none =>
      rw [h] at hsome
      rw [List.filterMap_cons_none h, List.filter_cons_of_neg (by simp [← hsome]), ih]
    | some outcome =>
      rw [h] at hsome
      rw [List.filterMap_cons_some h, List.filter_cons_of_pos (by simp [← hsome]), List.map_cons,
        List.map_cons, ih, path_of_outcome? h]

theorem run_eq_of_perm (distinct : (paths.map (shownPath root)).Nodup) {others : List Text}
    (perm : paths.Perm others) :
    run workspace config root others = run workspace config root paths := by
  have hperm := perm.filterMap (outcome? workspace config root)
  have hdistinct : ((paths.filterMap (outcome? workspace config root)).map Outcome.path).Nodup := by
    rw [map_path_outcomes]
    exact distinct.sublist (List.filter_sublist.map _)
  unfold run ofOutcomes
  rw [mergeSort_eq_of_perm hperm hdistinct, hperm.length_eq]

/-- Files without an engine contribute nothing. -/
theorem run_filter (workspace : Workspace) (config : Config) (root : Text) (paths : List Text) :
    run workspace config root (paths.filter config.handles) = run workspace config root paths := by
  unfold run
  congr 1
  rw [List.filterMap_filter]
  congr 1
  funext path
  have hsome : (outcome? workspace config root path).isSome = config.handles path := isSome_outcome?
  split
  · rfl
  · rename_i hnot
    rw [← hsome, Bool.not_eq_true, Option.isSome_eq_false_iff, Option.isNone_iff_eq_none] at hnot
    rw [hnot]

/-! ## Files in order -/

/-- The batch that some batches make up one after another. -/
def concat (batches : List Batch) : Batch :=
  ⟨batches.flatMap Batch.phrases, batches.flatMap Batch.failures,
    (batches.map Batch.filesProcessed).sum⟩

theorem run_of_ordered
    (ordered : paths.Pairwise fun a b => shownPath root a < shownPath root b) :
    run workspace config root paths =
      concat (paths.map fun path => run workspace config root [path]) := by
  have hsorted : (paths.filterMap (outcome? workspace config root)).Pairwise
      fun a b => a.le b = true := by
    refine ordered.filterMap _ ?_
    intro a b hab x hx y hy
    rw [Outcome.le_iff, path_of_outcome? hx, path_of_outcome? hy]
    exact List.lt_asymm hab
  rw [run, ofOutcomes, List.mergeSort_of_pairwise hsorted]
  clear hsorted ordered
  induction paths with
  | nil => rfl
  | cons path paths ih =>
    simp only [concat, Batch.mk.injEq, List.map_cons, List.flatMap_cons, List.sum_cons] at ih ⊢
    obtain ⟨hphrases, hfailures, hcount⟩ := ih
    cases h : outcome? workspace config root path with
    | none =>
      rw [List.filterMap_cons_none h, hphrases, hfailures, hcount]
      have hnone : config.engine? path = none := by simpa [outcome?] using h
      simp [run_singleton_of_unhandled hnone]
    | some outcome =>
      rw [List.filterMap_cons_some h, List.flatMap_cons, hphrases, List.length_cons, hcount,
        run_singleton_of_outcome? h, Nat.add_comm, List.filterMap_cons, ← hfailures]
      cases outcome.failure? <;> simp

end

/-! ## The sum -/

/-- Whether a file has an engine and no failure. -/
def succeeds (workspace : Workspace) (config : Config) (root path : Text) : Bool :=
  config.handles path && (run workspace config root [path]).failures.isEmpty

variable {workspace : Workspace} {config : Config} {root : Text} {paths : List Text}

/-- A file that has an engine either succeeds or fails once, and any other does neither. -/
theorem count_of_file (workspace : Workspace) (config : Config) (root path : Text) :
    (if config.handles path then 1 else 0) =
      (if succeeds workspace config root path then 1 else 0) +
        (run workspace config root [path]).failures.length := by
  have hyields := yields_run_singleton workspace config root path
  unfold succeeds
  generalize run workspace config root [path] = alone at hyields
  cases hyields <;> simp [Config.handles, *]

theorem countP_handles (paths : List Text) :
    paths.countP config.handles = paths.countP (succeeds workspace config root) +
      (paths.flatMap fun path => (run workspace config root [path]).failures).length := by
  induction paths with
  | nil => rfl
  | cons path paths ih =>
    have hfile := count_of_file workspace config root path
    rw [List.countP_cons, List.countP_cons, List.flatMap_cons, List.length_append, ih]
    omega

theorem exists_ordered (distinct : (paths.map (shownPath root)).Nodup) :
    ∃ order : List Text, order.Perm paths ∧
      order.Pairwise fun a b => shownPath root a < shownPath root b := by
  let le (a b : Text) : Bool := !decide (shownPath root b < shownPath root a)
  have le_iff (a b : Text) : le a b = true ↔ ¬ shownPath root b < shownPath root a := by simp [le]
  have hperm : (paths.mergeSort le).Perm paths := List.mergeSort_perm _ _
  have hsorted : (paths.mergeSort le).Pairwise fun a b => le a b = true := by
    refine List.pairwise_mergeSort ?_ ?_ _
    · intro a b c hab hbc
      rw [le_iff] at *
      exact List.le_trans hab hbc
    · intro a b
      rw [Bool.or_eq_true, le_iff, le_iff]
      exact List.le_total (shownPath root a) (shownPath root b)
  have hne : (paths.mergeSort le).Pairwise fun a b => shownPath root a ≠ shownPath root b :=
    List.pairwise_map.mp ((hperm.map _).nodup_iff.mpr distinct)
  refine ⟨_, hperm, (hsorted.and hne).imp ?_⟩
  intro a b hab
  exact lt_of_le_of_ne (not_lt.mp ((le_iff a b).mp hab.1)) hab.2

/-- Whatever order the files are given in, the batch is what they yield one by one, in the byte order
of the paths under which they are shown. -/
theorem run_is_sum (distinct : (paths.map (shownPath root)).Nodup) :
    (∀ others, paths.Perm others →
      run workspace config root others = run workspace config root paths) ∧
    (∀ path, Yields workspace config root path (run workspace config root [path])) ∧
    (∃ order : List Text, order.Perm (paths.filter config.handles) ∧
      (order.Pairwise fun a b => Text.utf8 (shownPath root a) < Text.utf8 (shownPath root b)) ∧
      run workspace config root paths =
        concat (order.map fun path => run workspace config root [path])) ∧
    (run workspace config root paths).filesProcessed = paths.countP config.handles ∧
    (run workspace config root paths).filesProcessed =
      paths.countP (succeeds workspace config root) +
        (run workspace config root paths).failures.length ∧
    run workspace config root paths = run workspace config root (paths.filter config.handles) := by
  have hdistinct : ((paths.filter config.handles).map (shownPath root)).Nodup :=
    distinct.sublist (List.filter_sublist.map _)
  obtain ⟨order, horder, hsorted⟩ := exists_ordered hdistinct
  have hrun : run workspace config root paths =
      concat (order.map fun path => run workspace config root [path]) := by
    rw [← run_filter, ← run_of_ordered hsorted]
    exact (run_eq_of_perm hdistinct horder.symm).symm
  have hcount : (run workspace config root paths).filesProcessed = paths.countP config.handles := by
    rw [run, ofOutcomes, List.length_filterMap_eq_countP]
    simp only [isSome_outcome?]
  have hsucceeds : paths.countP (succeeds workspace config root) =
      order.countP (succeeds workspace config root) := by
    rw [horder.countP_eq, List.countP_filter]
    exact List.countP_congr fun path _ => by simp +contextual [succeeds]
  refine ⟨fun others perm => run_eq_of_perm distinct perm, yields_run_singleton _ _ _,
    ⟨order, horder, hsorted.imp Text.utf8_lt_utf8.mpr, hrun⟩, hcount, ?_, (run_filter _ _ _ _).symm⟩
  calc (run workspace config root paths).filesProcessed
    _ = (paths.filter config.handles).countP config.handles := by rw [hcount]; simp [List.countP_filter]
    _ = order.countP config.handles := (horder.countP_eq _).symm
    _ = order.countP (succeeds workspace config root) +
        (order.flatMap fun path => (run workspace config root [path]).failures).length :=
      countP_handles order
    _ = paths.countP (succeeds workspace config root) +
        (run workspace config root paths).failures.length := by
      rw [hsucceeds, hrun]
      simp only [concat, List.flatMap_map]

/-- Files come in any order, and those without an engine may be left out. -/
theorem run_is_sum_of_page_and_table :
    let tree : FileTree :=
      .file "a.html" (some "<b>") (.file "b.js" (some "f(1)") (.file "notes.md" none .empty))
    let paths : List Text := ["./notes.md", "./b.js", "./a.html"]
    (paths.map (shownPath ".")).Nodup ∧
      run ⟨tree, []⟩ .standard "." ["./a.html", "./b.js", "./notes.md"] =
        run ⟨tree, []⟩ .standard "." paths ∧
      run ⟨tree, []⟩ .standard "." paths = run ⟨tree, []⟩ .standard "." ["./b.js", "./a.html"] ∧
      (run ⟨tree, []⟩ .standard "." paths).filesProcessed = 2 := by
  intro tree paths
  have distinct : (paths.map (shownPath ".")).Nodup := by decide
  obtain ⟨hperm, -, -, hcount, -, hfilter⟩ := @run_is_sum ⟨tree, []⟩ .standard "." paths distinct
  have handled : paths.filter Config.standard.handles = (["./b.js", "./a.html"] : List Text) := by
    decide
  exact ⟨distinct, hperm _ (by decide), hfilter.trans (by rw [handled]), hcount.trans (by decide)⟩

end Phrasebook.Batch
