import Phrasebook.Config.Basic
import Phrasebook.Json.Writer
import Phrasebook.Scope.PolicyJson

/-!
# Configurations in JSON

A configuration is an object, or an array of its values. A member that is missing has its standard
value, and one that is not known is ignored.
-/

namespace Phrasebook.Config

def toJson (config : Config) : Json :=
  .ofMembers [("ignores", .ofTexts config.ignores),
    ("includes", .ofTexts config.includes),
    ("sourceRoot", .string config.sourceRoot),
    ("scopeAttribute", .string config.scopeAttribute),
    ("literalTableExtensions", .ofTexts config.literalTableExtensions),
    ("goTableExtensions", .ofTexts config.goTableExtensions),
    ("markupExtensions", .ofTexts config.markupExtensions),
    ("tagPolicy", config.tagPolicy.toJson)]

def ofJson? (json : Json) : Option Config := do
  let members ← json.record? ["ignores", "includes", "sourceRoot", "scopeAttribute",
    "literalTableExtensions", "goTableExtensions", "markupExtensions", "tagPolicy"]
  let texts (name : Text) (absent : List Text) := Json.field? members name Json.texts? (some absent)
  let text (name absent : Text) := Json.field? members name Json.text? (some absent)
  let ignores ← texts "ignores" standard.ignores
  let includes ← texts "includes" standard.includes
  let sourceRoot ← text "sourceRoot" standard.sourceRoot
  let scopeAttribute ← text "scopeAttribute" standard.scopeAttribute
  let literalTables ← texts "literalTableExtensions" standard.literalTableExtensions
  let goTables ← texts "goTableExtensions" standard.goTableExtensions
  let markup ← texts "markupExtensions" standard.markupExtensions
  let tagPolicy ← Json.field? members "tagPolicy" TagPolicy.ofJson? (some standard.tagPolicy)
  return ⟨ignores, includes, sourceRoot, scopeAttribute, literalTables, goTables, markup, tagPolicy⟩

/-- The text of the standard configuration. -/
def standardText : Text := standard.toJson.write

end Phrasebook.Config
