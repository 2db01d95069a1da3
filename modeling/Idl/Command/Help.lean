/-!
# Help

The texts that the command line answers requests with.
-/

namespace Idl.Command

/-- The name and the version of the program. -/
def versionText : String := "idlc 0.1.0\n"

/-- How to use the program, in short. -/
def shortHelp : String := "\n".intercalate
  ["A compiler from IDL interface definitions to TypeScript",
    "",
    "Usage: idlc [OPTIONS] <FILE>",
    "",
    "Arguments:",
    "  <FILE>  Path to the IDL file to compile",
    "",
    "Options:",
    "  -v, --verbose...     Log more about the compilation (may be repeated)",
    "      --color <COLOR>  When to use colours in diagnostics [default: auto] [possible values: auto, always, never]",
    "  -h, --help           Print help (see more with '--help')",
    "  -V, --version        Print version",
    ""]

/-- How to use the program. -/
def longHelp : String := "\n".intercalate
  ["Compile IDL interface definitions to TypeScript",
    "",
    "The top-level declarations of `dir/file.idl` are written to `dir/file.ts`, and the body of each `module M` to " ++
      "`dir/M/file.ts`. Included files are compiled along with the file that includes them.",
    "",
    "Usage: idlc [OPTIONS] <FILE>",
    "",
    "Arguments:",
    "  <FILE>",
    "          Path to the IDL file to compile",
    "",
    "Options:",
    "  -v, --verbose...",
    "          Log more about the compilation (may be repeated)",
    "",
    "      --color <COLOR>",
    "          When to use colours in diagnostics",
    "          ",
    "          [default: auto]",
    "          [possible values: auto, always, never]",
    "",
    "  -h, --help",
    "          Print help (see a summary with '-h')",
    "",
    "  -V, --version",
    "          Print version",
    ""]

end Idl.Command
