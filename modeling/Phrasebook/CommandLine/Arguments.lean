import Phrasebook.Text.Search

/-!
# Arguments of the command line

A command is a word with options behind it. Arguments are read from left to right and the first one
that is wrong, or that asks for help, decides.
-/

namespace Phrasebook.CommandLine

/-! ## Commands -/

inductive Format where
  | human
  | json
  deriving DecidableEq, Repr

/-- The options of an extraction; an option is there at most once. -/
structure Options where
  sourceRoot : Option Text
  scopeAttribute : Option Text
  verbose : Bool
  format : Option Format
  deriving DecidableEq, Repr

def Options.empty : Options := ⟨none, none, false, none⟩

/-- What help is about. -/
inductive Topic where
  | program
  | extract
  | init
  | help
  deriving DecidableEq, Repr

inductive Command where
  | help (topic : Topic)
  | version
  | extract (options : Options)
  | init
  deriving DecidableEq, Repr

/-- Why arguments are no command. -/
inductive UsageError where
  | unexpected (argument : Text)
  | missingValue (option : Text)
  | invalidValue (option value : Text)
  | repeated (option : Text)
  deriving DecidableEq, Repr

def UsageError.message : UsageError → Text
  | unexpected argument => "unexpected argument '" ++ argument ++ "' found"
  | missingValue option => "a value is required for '" ++ option ++ "' but none was supplied"
  | invalidValue option value => "invalid value '" ++ value ++ "' for '" ++ option ++ "'"
  | repeated option => "the argument '" ++ option ++ "' cannot be used multiple times"

/-! ## Single arguments -/

/-- An argument by its form. -/
inductive Argument where
  /-- Two hyphens alone: no options follow. -/
  | terminator
  /-- A name behind two hyphens, and the value behind an equals sign. -/
  | long (name : Text) (value : Option Text)
  /-- Letters behind one hyphen. -/
  | short (letters : Text)
  | plain (text : Text)
  deriving DecidableEq, Repr

def Argument.ofText (text : Text) : Argument :=
  match text with
  | ['-', '-'] => .terminator
  | '-' :: '-' :: rest =>
    match Text.split? "=" rest with
    | some (name, value) => .long name (some value)
    | none => .long rest none
  | '-' :: letter :: letters => .short (letter :: letters)
  | _ => .plain text

/-! ## Options of an extraction -/

/-- An option that takes a value. -/
inductive Valued where
  | sourceRoot
  | scopeAttribute
  | format
  deriving DecidableEq, Repr

def Valued.name : Valued → Text
  | sourceRoot => "--source-root"
  | scopeAttribute => "--scope-attribute"
  | format => "--format"

def Valued.ofName? (name : Text) : Option Valued :=
  [sourceRoot, scopeAttribute, format].find? fun option => option.name = "--" ++ name

def Format.ofText? (text : Text) : Option Format :=
  if text = "human" then some .human else if text = "json" then some .json else none

namespace Options

/-- The options with a value for `option`, which must be a new one and one that it can have. -/
def set (options : Options) (option : Valued) (value : Text) : Except UsageError Options :=
  match option with
  | .sourceRoot =>
    if value = [] then .error (.invalidValue option.name value)
    else if options.sourceRoot.isSome then .error (.repeated option.name)
    else .ok { options with sourceRoot := some value }
  | .scopeAttribute =>
    if options.scopeAttribute.isSome then .error (.repeated option.name)
    else .ok { options with scopeAttribute := some value }
  | .format =>
    match Format.ofText? value with
    | none => .error (.invalidValue option.name value)
    | some format =>
      if options.format.isSome then .error (.repeated option.name)
      else .ok { options with format := some format }

def setVerbose (options : Options) : Except UsageError Options :=
  if options.verbose then .error (.repeated "--verbose") else .ok { options with verbose := true }

end Options

/-- The options behind letters in a row, or nothing if a letter asks for help. -/
def readLetters (options : Options) : Text → Except UsageError (Option Options)
  | [] => .ok (some options)
  | 'h' :: _ => .ok none
  | 'v' :: letters => do readLetters (← options.setVerbose) letters
  | letter :: _ => .error (.unexpected ['-', letter])

/-- The command of an extraction, where `options` have been read and `pending` waits for its value. -/
def readExtract (pending : Option Valued) (options : Options) : List Text → Except UsageError Command
  | [] =>
    match pending with
    | some option => .error (.missingValue option.name)
    | none => .ok (.extract options)
  | text :: rest =>
    match pending, Argument.ofText text with
    | some option, .plain value => do readExtract none (← options.set option value) rest
    | some option, _ => .error (.missingValue option.name)
    | none, .plain _ => .error (.unexpected text)
    | none, .terminator =>
      match rest with
      | [] => .ok (.extract options)
      | argument :: _ => .error (.unexpected argument)
    | none, .short letters => do
      match ← readLetters options letters with
      | some options => readExtract none options rest
      | none => .ok (.help .extract)
    | none, .long name value =>
      match Valued.ofName? name, value with
      | some option, some value => do readExtract none (← options.set option value) rest
      | some option, none => readExtract (some option) options rest
      | none, some _ => .error (.unexpected text)
      | none, none =>
        if name = "help" then .ok (.help .extract)
        else if name = "verbose" then do readExtract none (← options.setVerbose) rest
        else .error (.unexpected text)

/-! ## Whole command lines -/

/-- The command `init`, which has no options of its own. -/
def readInit : List Text → Except UsageError Command
  | [] => .ok .init
  | text :: rest =>
    match Argument.ofText text, rest with
    | .terminator, [] => .ok .init
    | .terminator, argument :: _ => .error (.unexpected argument)
    | .short ('h' :: _), _ | .long ['h', 'e', 'l', 'p'] none, _ => .ok (.help .init)
    | _, _ => .error (.unexpected text)

/-- The topic that the words behind `help` name. -/
def readHelp : List Text → Except UsageError Command
  | [] => .ok (.help .program)
  | word :: rest =>
    let topics : List (Text × Topic) := [("extract", .extract), ("init", .init), ("help", .help)]
    match topics.lookup word, rest with
    | some topic, [] => .ok (.help topic)
    | some _, argument :: _ => .error (.unexpected argument)
    | none, _ => .error (.unexpected word)

/-- The command that the arguments give. Without any, it is the help for the program. -/
def Command.ofArguments : List Text → Except UsageError Command
  | [] => .ok (.help .program)
  | text :: rest =>
    match Argument.ofText text with
    | .terminator =>
      match rest with
      | [] => .ok (.help .program)
      | argument :: _ => .error (.unexpected argument)
    | .short ('h' :: _) => .ok (.help .program)
    | .short ('V' :: _) => .ok .version
    | .short _ => .error (.unexpected text)
    | .long name none =>
      if name = "help" then .ok (.help .program)
      else if name = "version" then .ok .version
      else .error (.unexpected text)
    | .long _ (some _) => .error (.unexpected text)
    | .plain word =>
      if word = "extract" then readExtract none .empty rest
      else if word = "init" then readInit rest
      else if word = "help" then readHelp rest
      else .error (.unexpected word)

end Phrasebook.CommandLine
