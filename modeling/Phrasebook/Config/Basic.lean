import Phrasebook.Scope.State

/-!
# Configurations

What a project says about itself: which files to scan, which of them are read how, and the rules for
its pages.
-/

namespace Phrasebook

structure Config where
  ignores : List Text
  /-- Directories or globs to scan; none stands for the whole source root. -/
  includes : List Text
  /-- The directory that is scanned. -/
  sourceRoot : Text
  scopeAttribute : Text
  literalTableExtensions : List Text
  goTableExtensions : List Text
  markupExtensions : List Text
  tagPolicy : TagPolicy
  deriving DecidableEq, Repr

namespace Config

def standard : Config where
  ignores := []
  includes := []
  sourceRoot := "./"
  scopeAttribute := "lang"
  literalTableExtensions := ["js"]
  goTableExtensions := ["go"]
  markupExtensions := ["html", "htm", "xhtml", "php"]
  tagPolicy := .standard

def rules (config : Config) : Rules := ⟨config.scopeAttribute, config.tagPolicy⟩

end Config

end Phrasebook
