/-!
# Help texts

What the program prints about its own use, line by line: `Topic.lines` explains the program or one
of its commands, `versionText` names the program and its version.
-/

namespace Rendezvous

/-- What can be explained: the program as a whole, or one of its commands. -/
inductive Topic where
  | program | run | help
deriving DecidableEq

namespace Topic

/-- The command of a name. -/
def ofCommand? : String → Option Topic
  | "run" => some .run
  | "help" => some .help
  | _ => none

/-- What a command is for. -/
def purpose : Topic → String
  | .program => ""
  | .run => "Run a scenario against in-memory stores"
  | .help => "Print this message or the help of the given subcommand(s)"

/-- The explanation of a topic, line by line. -/
def lines : Topic → List String
  | .program =>
    ["Usage: sepulka [OPTIONS] <COMMAND>",
      "",
      "Commands:",
      "  run   " ++ Topic.run.purpose,
      "  help  " ++ Topic.help.purpose,
      "",
      "Options:",
      "  -v, --verbose...  Log more; repeat for even more",
      "  -h, --help        Print help",
      "  -V, --version     Print version"]
  | .run =>
    [Topic.run.purpose,
      "",
      "Usage: sepulka run [OPTIONS] <file>",
      "",
      "Arguments:",
      "  <file>  The scenario file to run",
      "",
      "Options:",
      "      --max-steps <N>  Longest chain of steps one take may drive",
      "  -v, --verbose...     Log more; repeat for even more",
      "  -h, --help           Print help"]
  | .help =>
    [Topic.help.purpose,
      "",
      "Usage: sepulka help [COMMAND]...",
      "",
      "Arguments:",
      "  [COMMAND]...  Print help for the subcommand(s)"]

end Topic

/-- The name of the program and its version. -/
def versionText : String := "sepulka 0.1.0"

end Rendezvous
