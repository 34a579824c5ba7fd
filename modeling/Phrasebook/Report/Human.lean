import Phrasebook.Batch
import Phrasebook.Report.Style

/-!
# Reports for people

Each phrase is shown with its place and its hint, a line each, then each failure, and at the end a
summary.
-/

namespace Phrasebook

/-- The word for a kind of phrase. -/
def Phrase.Kind.word : Phrase.Kind → Text
  | .keyedString => "string"
  | .textNode => "text"
  | .attribute name => "attr:" ++ name
  | .wholeElement => "element"
  | .serverString => "code"

namespace Report

/-- A number of things, with the word for one or for many of them. -/
def plural (count : Nat) (one many : Text) : Text := if count = 1 then one else many

/-- A line of text with its end. -/
def line (text : Text) : Text := text ++ "\n"

/-- The line that shows a place. -/
def placeLine (colored : Bool) (place : Text) : Text :=
  line ("  " ++ Style.arrow.paint colored "-->" ++ " " ++ place)

def hintLine (colored : Bool) (hint : Text) : Text :=
  line ("   " ++ Style.arrow.paint colored "=" ++ " " ++ Style.label.paint colored "hint:" ++ " " ++
    hint)

def ofPhrase (colored : Bool) (located : Located) : Text :=
  let phrase := located.phrase
  let key : Text := match phrase.key with
    | some key => "  " ++ Style.remark.paint colored key
    | none => []
  let hints := (phrase.hint.map Text.lines).getD []
  line (Style.kind.paint colored phrase.kind.word ++ ": \"" ++ phrase.value ++ "\"" ++ key) ++
    placeLine colored (Text.place located.path phrase.line) ++ hints.flatMap (hintLine colored) ++
    line []

def ofFailure (colored : Bool) (failure : Failure) : Text :=
  line (Style.error.paint colored "error" ++ ": " ++ failure.cause.message ++ "  " ++
    Style.remark.paint colored "parse-error") ++ placeLine colored failure.place ++ line []

def successMark : Text := "✓"

def failureMark : Text := "✘"

def summary (colored : Bool) (batch : Batch) : Text :=
  let phrases := batch.phrases.length
  let files := batch.filesProcessed
  let failed := batch.failures.length
  let found : Text := "Extracted " ++ Text.ofNat phrases ++ " " ++ plural phrases "record" "records" ++
    " from " ++ Text.ofNat files ++ " " ++ plural files "file" "files"
  if failed = 0 then
    line (Style.success.paint colored successMark ++ " " ++ Style.success.paint colored found)
  else
    line (Style.failure.paint colored failureMark ++ " " ++ found ++ ", " ++ Text.ofNat failed ++ " " ++
      Style.failure.paint colored (plural failed "file" "files") ++ " could not be parsed")

/-- The whole report. -/
def human (colored : Bool) (batch : Batch) : Text :=
  batch.phrases.flatMap (ofPhrase colored) ++ batch.failures.flatMap (ofFailure colored) ++
    summary colored batch

end Report

end Phrasebook
