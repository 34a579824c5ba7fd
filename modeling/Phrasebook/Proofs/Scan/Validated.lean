import Phrasebook.Config.Validation
import Phrasebook.Proofs.Glob.Classes
import Phrasebook.Proofs.Scan.Files

/-!
# What a valid configuration says of a scan

A valid configuration has no pattern that cannot be read. A scan applies its ignores as they are, but
searches for its includes component by component, so that an include with a class that names a slash
is dropped, valid as it is.
-/

namespace Phrasebook

section

variable {config : Config} {list : Text} {patterns : List Text}

theorem Config.checkGlobs_eq_ok_iff :
    checkGlobs list patterns = .ok () ↔ ∀ pattern ∈ patterns, ∃ compiled, Glob.compile pattern = .ok compiled := by
  induction patterns with
  | nil => simp [checkGlobs]
  | cons pattern others ih =>
    rw [List.forall_mem_cons, ← ih, checkGlobs]
    cases Glob.compile pattern <;> simp

theorem Config.validate_eq_ok_iff : config.validate = .ok () ↔
    (∀ ignore ∈ config.ignores, ∃ pattern, Glob.compile ignore = .ok pattern) ∧
      (∀ include_ ∈ config.includes, Glob.hasWildcard include_ = true →
        ∃ pattern, Glob.compile include_ = .ok pattern) ∧
      Text.allBlank config.scopeAttribute = false := by
  simp only [validate, bind_eq_ok, Unique.exists_iff, PUnit.default_eq_unit, checkGlobs_eq_ok_iff,
    List.mem_filter, and_imp]
  cases Text.allBlank config.scopeAttribute <;> simp

end

namespace Scan

variable {workspace : Workspace} {base include_ ignore : Text} {config : Config} {pattern : Glob.Pattern}
  {accepts : Text → Bool}

theorem mem_ignoreGlobs {ignores : List Text} (hin : ignore ∈ ignores)
    (hwildcard : Glob.hasWildcard ignore = true) (h : Glob.compile ignore = .ok pattern) :
    pattern ∈ ignoreGlobs ignores :=
  List.mem_filterMap.mpr ⟨ignore, List.mem_filter.mpr ⟨hin, hwildcard⟩, by rw [h]; rfl⟩

theorem not_isMatch_of_mem_run {includes ignores : List Text} {file : Text}
    (hpattern : pattern ∈ ignoreGlobs ignores)
    (hfile : file ∈ (run workspace base includes ignores accepts).files) :
    Glob.isMatch pattern file = false := by
  rw [Bool.eq_false_iff]
  intro hmatch
  have hkept := (mem_run hfile).2.1
  rw [isIgnored_iff.mpr (Or.inr ⟨pattern, hpattern, hmatch⟩)] at hkept
  cases hkept

theorem placesOf_eq_nil {error : Glob.Error} (hwildcard : Glob.hasWildcard include_ = true)
    (h : Glob.directories workspace (Path.join base include_) = .error error) :
    placesOf workspace base include_ = [] := by
  rw [placesOf, if_pos hwildcard, h]

/-- Every ignore of a valid configuration is read and nothing that it matches is returned. An include
is searched for, and all that lies in the directories found is scanned, if no class of it names a
slash; an include with such a class is dropped. -/
theorem run_of_validate (valid : config.validate = .ok ()) (hbase : Glob.isPlain base = true) :
    (∀ ignore ∈ config.ignores, Glob.hasWildcard ignore = true →
      ∃ pattern, Glob.compile ignore = .ok pattern ∧ pattern ∈ ignoreGlobs config.ignores ∧
        ∀ file ∈ (run workspace base config.includes config.ignores accepts).files,
          Glob.isMatch pattern file = false) ∧
    ∀ include_ ∈ config.includes, Glob.hasWildcard include_ = true →
      ∃ pattern, Glob.compile include_ = .ok pattern ∧
        (Glob.isCuttable pattern = true →
          ∃ hits, Glob.directories workspace (Path.join base include_) = .ok hits ∧
            ∀ hit ∈ hits, ∀ file ∈ workspace.filesFrom hit.path,
              isIgnored base config.ignores file = false → accepts file = true →
                ∃ kept ∈ (run workspace base config.includes config.ignores accepts).files,
                  Path.components kept = Path.components file) ∧
        (Glob.isCuttable pattern = false →
          (∃ error, Glob.directories workspace (Path.join base include_) = .error error) ∧
            placesOf workspace base include_ = []) := by
  obtain ⟨hignores, hincludes, -⟩ := Config.validate_eq_ok_iff.mp valid
  constructor
  · intro ignore hin hwildcard
    obtain ⟨pattern, hcompile⟩ := hignores ignore hin
    have hpattern := mem_ignoreGlobs hin hwildcard hcompile
    exact ⟨pattern, hcompile, hpattern, fun file => not_isMatch_of_mem_run hpattern⟩
  · intro include_ hin hwildcard
    obtain ⟨pattern, hcompile⟩ := hincludes include_ hin hwildcard
    have hsearched : (Glob.directories workspace (Path.join base include_)).isOk =
        Glob.isCuttable pattern := Glob.isOk_directories_join hbase hcompile
    refine ⟨pattern, hcompile, fun hcuttable => ?_, fun hcut => ?_⟩
    · obtain ⟨hits, hhits⟩ := isOk_iff.mp (hsearched.trans hcuttable)
      refine ⟨hits, hhits, fun hit hhit file hfile hkept haccepts => ?_⟩
      exact exists_mem_run
        (mem_reached_iff.mpr (Or.inr ⟨include_, hin, Or.inr ⟨hwildcard, hits, hhits, hit, hhit, hfile⟩⟩))
        hkept haccepts
    · rw [hcut] at hsearched
      cases hdirectories : Glob.directories workspace (Path.join base include_) with
      | ok hits =>
        rw [hdirectories] at hsearched
        cases hsearched
      | error error => exact ⟨⟨error, rfl⟩, placesOf_eq_nil hwildcard hdirectories⟩

/-- A class that names a slash takes a valid include out of the scan. -/
theorem run_of_validate_class :
    let config : Config := { Config.standard with
      includes := ["[w]ww*", "[c/]ss*"], ignores := ["*.min.js"] }
    let workspace : Workspace := ⟨.directory "app" (.directory "css" (.file "c.js" none .empty)
      (.directory "www" (.file "a.js" none (.file "a.min.js" none .empty)) .empty)) .empty, []⟩
    config.validate = .ok () ∧
      (run workspace "app" config.includes config.ignores fun _ => true).files =
        (["app/www/a.js"] : List Text) ∧
      placesOf workspace "app" "[c/]ss*" = [] := by
  intro config workspace
  have valid : config.validate = .ok () := by decide +kernel
  have hcut : (Glob.compile "[c/]ss*").toOption.map Glob.isCuttable = some false := by decide +kernel
  have hplain : Glob.isPlain "app" = true := by decide
  have hrun := @run_of_validate workspace "app" config (fun _ => true) valid hplain
  obtain ⟨pattern, hcompile, -, hdropped⟩ := hrun.2 "[c/]ss*"
    (List.mem_cons_of_mem _ List.mem_cons_self) (by decide)
  rw [hcompile] at hcut
  exact ⟨valid, by decide +kernel, (hdropped (Option.some.inj hcut)).2⟩

end Scan

end Phrasebook
