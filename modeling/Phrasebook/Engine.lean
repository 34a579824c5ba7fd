import Phrasebook.Config.Basic
import Phrasebook.Page.Walk
import Phrasebook.Path
import Phrasebook.Table.GoMap

/-!
# Engines

The extension of a file's name decides how the file is read. An extension is listed with or without
its dot and in any case, and where it is listed twice the first listing counts.
-/

namespace Phrasebook

inductive Engine where
  | literalTable
  | goTable
  | markup
  deriving DecidableEq, Repr

namespace Engine

def name : Engine → Text
  | literalTable => "literal-table"
  | goTable => "go-table"
  | markup => "markup"

/-- The phrases that an engine finds in a source. -/
def phrases (rules : Rules) (source : Text) : Engine → Except Fault (List Phrase)
  | literalTable => Table.Plain.phrases source
  | goTable => Table.GoMap.phrases source
  | markup => Page.phrases rules source

/-- A listed extension in the form in which extensions are compared. -/
def normalExtension (extension : Text) : Text := Text.lower (extension.dropWhile (· = '.'))

end Engine

namespace Config

/-- The listed extensions with their engines, in the order in which they are looked up. -/
def engines (config : Config) : List (Text × Engine) :=
  let listed (extensions : List Text) (engine : Engine) : List (Text × Engine) :=
    extensions.map fun extension => (Engine.normalExtension extension, engine)
  listed config.literalTableExtensions .literalTable ++ listed config.goTableExtensions .goTable ++
    listed config.markupExtensions .markup

/-- The engine for a file. -/
def engine? (config : Config) (path : Text) : Option Engine :=
  (Path.extension? path).bind fun extension => config.engines.lookup (Text.lower extension)

def handles (config : Config) (path : Text) : Bool := (config.engine? path).isSome

end Config

end Phrasebook
