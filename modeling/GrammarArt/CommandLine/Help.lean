import GrammarArt.CommandLine.Invocation

/-! # Texts about the program

The version line, and a summary of the program or of one of its commands.
-/
namespace GrammarArt.CommandLine

/-- The name and the version of the program. -/
def versionText : String := "randomart 0.1.0\n"

/-- The options of a source. -/
def sourceSummary : String :=
  "      --grammar <GRAMMAR>        Grammar file. Takes precedence over `--preset`
      --preset <PRESET>          Built-in grammar preset [default: basic]
      --seed <SEED>              Seed for derivation. Random when omitted
      --depth <DEPTH>            Maximum derivation depth. Defaults to the preset's depth, or 12 for grammar files
      --expr <EXPR>              Canonical expression to use instead of deriving one
"

/-- The option that every command has. -/
def helpSummary : String := "  -h, --help                     Print help\n"

/-- The text about the program or about one of its commands. -/
def helpText : Option Topic → String
  | none =>
    "Usage: randomart <COMMAND>

Commands:
  render   Render an image as a PNG
  expr     Print the canonical form of a derived or parsed expression
  presets  List the built-in grammar presets
  help     Print this message or the help of the given subcommand(s)

Options:
  -h, --help     Print help
  -V, --version  Print version
"
  | some .render =>
    "Render an image as a PNG

Usage: randomart render [OPTIONS] --out <OUT>

Options:
" ++ sourceSummary ++
    "      --width <WIDTH>            Output width in pixels [default: 512]
      --height <HEIGHT>          Output height in pixels [default: 512]
      --backend <BACKEND>        Backend to use [default: cpu] [possible values: interpreted, cpu, gpu]
      --time <TIME>              Value of the `t` coordinate [default: 0]
      --var <VARS>               Variable value as `name=value`, repeatable
      --out <OUT>                Output PNG path
      --shader-out <SHADER_OUT>  Also write the generated WGSL compute shader here
      --config <CONFIG>          Start request as JSON; replaces the source, size, backend and time flags
" ++ helpSummary
  | some .expr =>
    "Print the canonical form of a derived or parsed expression

Usage: randomart expr [OPTIONS]

Options:
" ++ sourceSummary ++
    "      --shader                   Print the WGSL compute shader instead of the canonical form
" ++ helpSummary
  | some .presets =>
    "List the built-in grammar presets

Usage: randomart presets [OPTIONS]

Options:
      --show  Also print each preset's grammar text
  -h, --help  Print help
"

end GrammarArt.CommandLine
