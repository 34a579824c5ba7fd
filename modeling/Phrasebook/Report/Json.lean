import Phrasebook.Batch
import Phrasebook.Json.Writer

/-!
# Reports for programs

The whole batch as one JSON value: the phrases, the failures and a summary. What a phrase or a
failure does not have is left out.
-/

namespace Phrasebook

/-- A member that is always there. -/
def Json.required (name : Text) (value : Json) : List (Text × Json) := [(name, value)]

/-- A member that is there if its value is. -/
def Json.optional (name : Text) (value : Option Json) : List (Text × Json) :=
  (value.map fun value => (name, value)).toList

def Phrase.Kind.toJson : Phrase.Kind → Json
  | .keyedString => .ofMembers [("type", .string "keyedString")]
  | .textNode => .ofMembers [("type", .string "textNode")]
  | .attribute name => .ofMembers [("type", .string "attribute"), ("name", .string name)]
  | .wholeElement => .ofMembers [("type", .string "wholeElement")]
  | .serverString => .ofMembers [("type", .string "serverString")]

def Located.toJson (located : Located) : Json :=
  let phrase := located.phrase
  let location := .ofMembers [("filePath", .string located.path), ("line", .natural phrase.line)]
  .ofMembers (Json.optional "key" (phrase.key.map .string) ++ Json.required "value" (.string phrase.value) ++
    Json.optional "hint" (phrase.hint.map .string) ++ Json.required "kind" phrase.kind.toJson ++
    Json.required "location" location)

def Failure.toJson (failure : Failure) : Json :=
  .ofMembers (Json.required "filePath" (.string failure.path) ++
    Json.optional "line" (failure.line?.map .natural) ++
    Json.required "message" (.string failure.cause.message))

def Batch.toJson (batch : Batch) : Json :=
  .ofMembers [("records", .array (batch.phrases.map Located.toJson)),
    ("errors", .array (batch.failures.map Failure.toJson)),
    ("summary", .ofMembers [("filesProcessed", .natural batch.filesProcessed),
      ("recordCount", .natural batch.phrases.length),
      ("failedFiles", .natural batch.failures.length)])]

/-- The whole report. -/
def Report.json (batch : Batch) : Text := batch.toJson.write ++ "\n"

end Phrasebook
