import Phrasebook.Proofs.Json.Members
import Phrasebook.Report.Json

/-!
# Reports for programs lose nothing

What a report shows of a batch is read back from its text: the phrases and the failures in their order,
what they lack as against what is empty, and the summary. No two batches that differ in any of it have the
same report.
-/

namespace Phrasebook

/-! ## What a report shows -/

/-- A failure with its cause in words, whatever they are. -/
structure Report.Failure where
  path : Text
  line? : Option Nat
  cause : Text
  deriving DecidableEq, Repr

structure Report.Content where
  phrases : List Located
  failures : List Report.Failure
  filesProcessed : Nat
  recordCount : Nat
  failedFiles : Nat
  deriving DecidableEq, Repr

def Failure.shown (failure : Failure) : Report.Failure :=
  ⟨failure.path, failure.line?, failure.cause.message⟩

def Batch.content (batch : Batch) : Report.Content where
  phrases := batch.phrases
  failures := batch.failures.map Failure.shown
  filesProcessed := batch.filesProcessed
  recordCount := batch.phrases.length
  failedFiles := batch.failures.length

namespace Report

def Failure.toJson (failure : Failure) : Json :=
  .ofMembers (Json.required "filePath" (.string failure.path) ++
    Json.optional "line" (failure.line?.map .natural) ++
    Json.required "message" (.string failure.cause))

def Content.toJson (content : Content) : Json :=
  .ofMembers [("records", .array (content.phrases.map Located.toJson)),
    ("errors", .array (content.failures.map Failure.toJson)),
    ("summary", .ofMembers [("filesProcessed", .natural content.filesProcessed),
      ("recordCount", .natural content.recordCount),
      ("failedFiles", .natural content.failedFiles)])]

def Content.text (content : Content) : Text := content.toJson.write ++ "\n"

/-- The report on a batch depends on what it shows of it alone. -/
theorem json_eq_text (batch : Batch) : json batch = batch.content.text := by
  have hfailures : batch.failures.map Phrasebook.Failure.toJson =
      batch.content.failures.map Failure.toJson := by
    rw [Batch.content, List.map_map]
    rfl
  rw [json, Batch.toJson, hfailures]
  rfl

end Report

/-! ## Reading it -/

namespace Json

def natural? : Json → Option Nat
  | natural value => some value
  | _ => none

/-- The items of an array, each read by `read`. -/
def list? {α : Type} (read : Json → Option α) (json : Json) : Option (List α) :=
  json.items?.bind fun items => items.mapM read

/-- A member that has to be there. -/
def required? {α : Type} (members : List (Text × Json)) (name : Text) (read : Json → Option α) :
    Option α :=
  field? members name read none

/-- A member that may be missing. -/
def optional? {α : Type} (members : List (Text × Json)) (name : Text) (read : Json → Option α) :
    Option (Option α) :=
  field? members name (fun json => (read json).map some) (some none)

end Json

/-- The kinds that are known by their type alone. -/
def Phrase.Kind.plain : List (Text × Phrase.Kind) :=
  [("keyedString", .keyedString), ("textNode", .textNode), ("wholeElement", .wholeElement),
    ("serverString", .serverString)]

def Phrase.Kind.ofJson? (json : Json) : Option Phrase.Kind := do
  let members ← json.members?
  let type ← Json.required? members "type" Json.text?
  if type = "attribute" then (Json.required? members "name" Json.text?).map .attribute
  else plain.lookup type

def Located.ofJson? (json : Json) : Option Located := do
  let members ← json.members?
  let key ← Json.optional? members "key" Json.text?
  let value ← Json.required? members "value" Json.text?
  let hint ← Json.optional? members "hint" Json.text?
  let kind ← Json.required? members "kind" Phrase.Kind.ofJson?
  let location ← Json.required? members "location" Json.members?
  let path ← Json.required? location "filePath" Json.text?
  let line ← Json.required? location "line" Json.natural?
  return ⟨path, ⟨key, value, hint, kind, line⟩⟩

namespace Report

def Failure.ofJson? (json : Json) : Option Failure := do
  let members ← json.members?
  let path ← Json.required? members "filePath" Json.text?
  let line? ← Json.optional? members "line" Json.natural?
  let cause ← Json.required? members "message" Json.text?
  return ⟨path, line?, cause⟩

def Content.ofJson? (json : Json) : Option Content := do
  let members ← json.members?
  let phrases ← Json.required? members "records" (Json.list? Located.ofJson?)
  let failures ← Json.required? members "errors" (Json.list? Failure.ofJson?)
  let summary ← Json.required? members "summary" Json.members?
  let filesProcessed ← Json.required? summary "filesProcessed" Json.natural?
  let recordCount ← Json.required? summary "recordCount" Json.natural?
  let failedFiles ← Json.required? summary "failedFiles" Json.natural?
  return ⟨phrases, failures, filesProcessed, recordCount, failedFiles⟩

/-- What the text of a report shows. -/
def Content.ofText? (text : Text) : Option Content := (Json.read? text).bind ofJson?

end Report

/-! ## What is written is legible -/

namespace Json

section

variable {α β : Type} {name : Text}

theorem legible_required {value : Json} (h : Legible value) :
    ∀ member ∈ required name value, Legible member.2 := by
  simpa [required] using h

theorem legible_optional {value : Option α} {write : α → Json} (h : ∀ a, Legible (write a)) :
    ∀ member ∈ optional name (value.map write), Legible member.2 := by
  cases value with
  | none => simp [optional]
  | some a => simpa [optional] using h a

theorem list?_array_map {read : Json → Option β} {write : β → Json} (h : ∀ b, read (write b) = some b)
    (all : List β) : list? read (array (all.map write)) = some all :=
  mapM_of_forall₂ (List.forall₂_map_right_iff.mpr (List.forall₂_same.mpr fun b _ => h b))

end

end Json

theorem Phrase.Kind.legible_toJson (kind : Phrase.Kind) : Json.Legible kind.toJson := by
  cases kind <;> exact Json.legible_ofMembers (by simp [Json.Legible.string])

theorem Located.legible_toJson (located : Located) : Json.Legible located.toJson := by
  have hlocation : Json.Legible (.ofMembers [("filePath", .string located.path),
      ("line", .natural located.phrase.line)]) :=
    Json.legible_ofMembers (by simp [Json.Legible.string, Json.Legible.natural])
  refine Json.legible_ofMembers ?_
  simp only [List.forall_mem_append]
  refine ⟨⟨⟨⟨?_, ?_⟩, ?_⟩, ?_⟩, Json.legible_required hlocation⟩
  · exact Json.legible_optional .string
  · exact Json.legible_required (.string _)
  · exact Json.legible_optional .string
  · exact Json.legible_required (Phrase.Kind.legible_toJson _)

namespace Report

theorem Failure.legible_toJson (failure : Failure) : Json.Legible failure.toJson := by
  refine Json.legible_ofMembers ?_
  simp only [List.forall_mem_append]
  refine ⟨⟨?_, ?_⟩, ?_⟩
  · exact Json.legible_required (.string _)
  · exact Json.legible_optional .natural
  · exact Json.legible_required (.string _)

theorem Content.legible_toJson (content : Content) : Json.Legible content.toJson := by
  have hphrases := Json.legible_array_map Located.legible_toJson content.phrases
  have hfailures := Json.legible_array_map Failure.legible_toJson content.failures
  have hsummary : Json.Legible (.ofMembers [("filesProcessed", .natural content.filesProcessed),
      ("recordCount", .natural content.recordCount), ("failedFiles", .natural content.failedFiles)]) :=
    Json.legible_ofMembers (by simp [Json.Legible.natural])
  exact Json.legible_ofMembers (by simpa using ⟨hphrases, hfailures, hsummary⟩)

end Report

/-! ## What is written is read -/

theorem Located.ofJson?_toJson (located : Located) : ofJson? located.toJson = some located := by
  obtain ⟨path, key, value, hint, kind, line⟩ := located
  cases key <;> cases hint <;> cases kind <;> rfl

namespace Report

theorem Failure.ofJson?_toJson (failure : Failure) : ofJson? failure.toJson = some failure := by
  obtain ⟨path, line?, cause⟩ := failure
  cases line? <;> rfl

theorem Content.ofJson?_toJson (content : Content) : ofJson? content.toJson = some content := by
  have hphrases := Json.list?_array_map Located.ofJson?_toJson content.phrases
  have hfailures := Json.list?_array_map Failure.ofJson?_toJson content.failures
  have hread : ofJson? content.toJson =
      (Json.list? Located.ofJson? (.array (content.phrases.map Located.toJson))).bind fun phrases =>
      (Json.list? Failure.ofJson? (.array (content.failures.map Failure.toJson))).bind fun failures =>
      some ⟨phrases, failures, content.filesProcessed, content.recordCount, content.failedFiles⟩ := rfl
  rw [hread, hphrases, hfailures, Option.bind_some, Option.bind_some]

theorem Content.ofText?_text (content : Content) : ofText? content.text = some content := by
  have hbreak : ∀ c ∈ ("\n" : Text), Json.isSpace c = true := by simp [Json.isSpace]
  rw [ofText?, text, Json.read?_write content.legible_toJson hbreak, Option.bind_some,
    Content.ofJson?_toJson]

/-- A report is read back whole, whatever texts stand in it, and shows the batch that it is about: two
batches have the same report only if it shows the same of both. -/
theorem ofText?_json :
    (∀ content : Content, Content.ofText? content.text = some content) ∧
    ∀ batch : Batch, json batch = batch.content.text ∧
      Content.ofText? (json batch) = some batch.content ∧
      ∀ other : Batch, json other = json batch ↔ other.content = batch.content := by
  refine ⟨Content.ofText?_text, fun batch => ?_⟩
  have hread : Content.ofText? (json batch) = some batch.content := by
    rw [json_eq_text, Content.ofText?_text]
  refine ⟨json_eq_text batch, hread, fun other => ⟨fun hjson => ?_, fun hcontent => ?_⟩⟩
  · rw [← hjson, json_eq_text, Content.ofText?_text] at hread
    exact Option.some.inj hread
  · rw [json_eq_text, json_eq_text, hcontent]

end Report

end Phrasebook
