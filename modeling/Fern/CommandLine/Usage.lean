import Fern.Builtin
import Fern.Session

/-!
# Texts for the user

The help on the command line and the description of the language.
-/

namespace Fern.CommandLine

def versionName : String := "Fern v0.1.0"

def usageText : String :=
  textOfLines
    [ "usage: fern [-h] [-i] [--entry ENTRY] [--parse] [--analyze] [--show-result]",
      "            [--recursion-limit RECURSION_LIMIT] [--debug] [--version]",
      "            [script]",
      "",
      "Fern Programming Language - typed functional scripts",
      "",
      "positional arguments:",
      "  script                Fern script file to execute",
      "",
      "options:",
      "  -h, --help            show this help message and exit",
      "  -i, --interactive     Start interactive mode",
      "  --entry ENTRY         Entry function to run (default: main)",
      "  --parse               Parse file and show the parse tree (for debugging)",
      "  --analyze             Parse and resolve file, show the program table (for",
      "                        debugging)",
      "  --show-result         Print the value returned by the entry function",
      "  --recursion-limit RECURSION_LIMIT",
      "                        Python frame limit for evaluation (default: 200000)",
      "  --debug               Enable debug output for all stages",
      "  --version             show program's version number and exit",
      "",
      "Examples:",
      "  fern script.fern                 # Run main in a Fern script",
      "  fern --entry start script.fern   # Run another entry function",
      "  fern -i                          # Interactive mode",
      "  fern --parse script.fern         # Parse and show the parse tree",
      "  fern --analyze script.fern       # Resolve names and show the program table",
      "  fern --debug script.fern         # Run with evaluation traces on stderr",
      "        " ]

/-- A rule across the page. -/
def rule (width : Nat) : String := String.ofList (List.replicate width '=')

def languageText : String :=
  textOfLines
    [ "Fern Programming Language",
      rule 50,
      "A small typed functional language with:",
      "• Curried functions and closures",
      "• Sum types and exhaustive pattern matching",
      "• Records and tuples",
      "• Built-ins: " ++ ", ".intercalate Builtin.surfaceNames,
      "" ]

/-- What is said before a session that was not asked for. -/
def introductionText : String :=
  textOfLines ["Starting interactive mode...", "Use 'fern --help' for command line options", ""]

end Fern.CommandLine
