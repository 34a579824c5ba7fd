import Phrasebook.CommandLine.Arguments

/-!
# Help texts

What the program says about itself and about each of its commands.
-/

namespace Phrasebook.CommandLine

def programName : Text := "locscan"

def versionLine : Text := programName ++ " 0.1.0\n"

/-- The lines of a text, each with its end. -/
def ofLines (lines : List Text) : Text := lines.flatMap (· ++ "\n")

def Topic.text : Topic → Text
  | program => ofLines [
      "Extracts localizable strings from literal resource tables and markup",
      "",
      "Usage: locscan [COMMAND]",
      "",
      "Commands:",
      "  extract  Extract translatable strings from resource files",
      "  init     Initialize a new .locscanrc.json configuration file",
      "  help     Print this message or the help of the given subcommand(s)",
      "",
      "Options:",
      "  -h, --help     Print help",
      "  -V, --version  Print version"]
  | extract => ofLines [
      "Extract translatable strings from resource files",
      "",
      "Usage: locscan extract [OPTIONS]",
      "",
      "Options:",
      "      --source-root <SOURCE_ROOT>",
      "          Project root to scan; the config file is searched from here upwards",
      "      --scope-attribute <SCOPE_ATTRIBUTE>",
      "          Markup attribute marking translatable/excluded nodes (overrides config file)",
      "  -v, --verbose",
      "          Enable verbose output",
      "      --format <FORMAT>",
      "          Output format [default: human] [possible values: human, json]",
      "  -h, --help",
      "          Print help"]
  | init => ofLines [
      "Initialize a new .locscanrc.json configuration file",
      "",
      "Usage: locscan init",
      "",
      "Options:",
      "  -h, --help  Print help"]
  | help => ofLines [
      "Print this message or the help of the given subcommand(s)",
      "",
      "Usage: locscan help [COMMAND]...",
      "",
      "Arguments:",
      "  [COMMAND]...  Print help for the subcommand(s)"]

end Phrasebook.CommandLine
