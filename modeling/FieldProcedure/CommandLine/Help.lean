import FieldProcedure.CommandLine.Arguments

/-! What the program says about itself. -/
namespace FieldProcedure.CommandLine

def lines (ls : List String) : String := String.join (ls.map (· ++ "\n"))

def versionText : String := "workflo-gen 0.1.0\n"

def mainHelp : String := lines [
  "A step-graph compiler that turns declarative field-workflow steps into procedure definition " ++
    "documents",
  "",
  "Usage: workflo-cli [OPTIONS] <COMMAND>",
  "",
  "Commands:",
  "  csv   Compile a step table (CSV with a header row)",
  "  json  Compile a structured JSON workflow definition",
  "  help  Print this message or the help of the given subcommand(s)",
  "",
  "Options:",
  "  -o, --output <OUTPUT>  Where to write the document (`-` for stdout) [default: workflow.xml]",
  "  -f, --format <FORMAT>  Output format [default: xml] [possible values: xml, json]",
  "      --sequential-ids   Use sequential identifiers instead of random UUIDs",
  "      --debug            Enable debug logging",
  "  -h, --help             Print help",
  "  -V, --version          Print version"]

def tableHelp : String := lines [
  "Compile a step table (CSV with a header row)",
  "",
  "Usage: workflo-cli csv [OPTIONS] <PATH>",
  "",
  "Arguments:",
  "  <PATH>  Path to the CSV file (`-` for stdin)",
  "",
  "Options:",
  "      --title <TITLE>              Workflow title",
  "      --description <DESCRIPTION>  Workflow description",
  "  -o, --output <OUTPUT>            Where to write the document (`-` for stdout) " ++
    "[default: workflow.xml]",
  "  -f, --format <FORMAT>            Output format [default: xml] [possible values: xml, json]",
  "      --sequential-ids             Use sequential identifiers instead of random UUIDs",
  "      --debug                      Enable debug logging",
  "  -h, --help                       Print help"]

def jsonHelp : String := lines [
  "Compile a structured JSON workflow definition",
  "",
  "Usage: workflo-cli json [OPTIONS] <PATH>",
  "",
  "Arguments:",
  "  <PATH>  Path to the JSON file (`-` for stdin)",
  "",
  "Options:",
  "  -o, --output <OUTPUT>  Where to write the document (`-` for stdout) [default: workflow.xml]",
  "  -f, --format <FORMAT>  Output format [default: xml] [possible values: xml, json]",
  "      --sequential-ids   Use sequential identifiers instead of random UUIDs",
  "      --debug            Enable debug logging",
  "  -h, --help             Print help"]

def helpHelp : String := lines [
  "Print this message or the help of the given subcommand(s)",
  "",
  "Usage: workflo-cli help [COMMAND]...",
  "",
  "Arguments:",
  "  [COMMAND]...  Print help for the subcommand(s)"]

def helpText : Topic → String
  | .program => mainHelp
  | .command .table => tableHelp
  | .command .json => jsonHelp
  | .help => helpHelp

end FieldProcedure.CommandLine
