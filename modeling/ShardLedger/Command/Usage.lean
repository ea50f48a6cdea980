/-!
# Usage texts

How the program and its commands are used, as they describe themselves when asked for help.
-/

namespace ShardLedger

namespace Command

/-- The name and version of the program. -/
def versionText : String := "arbor-sim 0.4.1\n"

/-- The most characters that a line should have. -/
def lineWidth : Nat := 100

/-- So many blanks. -/
def blanks (n : Nat) : String := String.ofList (List.replicate n ' ')

/-- Rows of two columns. The second column is aligned, unless the first one takes more than two
fifths of a line and something does not fit beside it: then every second part stands on a line of
its own. -/
def columns (rows : List (String × String)) : String :=
  let width := (rows.map fun row => row.1.length).foldl max 0 + 2
  let stacked := 2 * lineWidth < 5 * width && rows.any fun row => lineWidth < width + row.2.length
  String.join (rows.map fun (left, right) =>
    let gap := if stacked then "\n" ++ blanks 10 else blanks (width - left.length)
    left ++ gap ++ right ++ "\n")

/-- The row of an option with its default. -/
def optionRow (name value about default : String) : String × String :=
  (s!"      --{name} <{value}>", s!"{about} [default: {default}]")

/-- The row of the output format. -/
def formatRow : String × String :=
  ("      --format <FORMAT>", "Output format [default: text] [possible values: text, json]")

/-- The row of the help option. -/
def helpRow : String × String := ("  -h, --help", "Print help")

/-- The rows that both commands share. -/
def sharedRows : List (String × String) :=
  [optionRow "rounds" "ROUNDS" "Simulation rounds per seed" "64",
   optionRow "content-rounds" "CONTENT_ROUNDS" "Rounds that receive new content" "32",
   optionRow "proposers" "PROPOSERS" "Number of simulated proposers" "3",
   optionRow "items" "ITEMS" "Content items submitted per round" "4",
   optionRow "fork-rate" "FORK_RATE" "Percent of proposals built on a stale tip" "10",
   optionRow "duplicate-rate" "DUPLICATE_RATE" "Percent of sends delivered twice" "5",
   optionRow "reorder-rate" "REORDER_RATE" "Percent of rounds whose deliveries are shuffled" "20",
   optionRow "max-delay" "MAX_DELAY" "Maximum delivery delay in rounds" "2"]

/-- What the help command does. -/
def helpAbout : String := "Print this message or the help of the given subcommand(s)"

/-- The usage of the program. -/
def programUsage : String :=
  "Deterministic chain-tree simulation\n\nUsage: arbor-sim [OPTIONS] <COMMAND>\n\nCommands:\n"
    ++ columns
      [("  run", "Run a simulation campaign across multiple seeds"),
       ("  replay", "Replay a single seed with detailed output"), ("  help", helpAbout)]
    ++ "\nOptions:\n"
    ++ columns [formatRow, helpRow, ("  -V, --version", "Print version")]

/-- The usage of the campaign command. -/
def runUsage : String :=
  "Run a simulation campaign across multiple seeds\n\nUsage: arbor-sim run [OPTIONS]\n\nOptions:\n"
    ++ columns
      ([formatRow, optionRow "seeds" "SEEDS" "Number of seeds to run" "100",
        optionRow "seed-start" "SEED_START" "Starting seed value" "0"] ++ sharedRows ++ [helpRow])
    ++ "\nEXAMPLES:\n    # Run 100 seeds with defaults\n    arbor-sim run --seeds 100\n\n"
    ++ "# Heavier forking and longer runs\n"
    ++ "    arbor-sim run --seeds 200 --rounds 128 --fork-rate 25\n\n"
    ++ "# Machine-readable output\n    arbor-sim run --seeds 100 --format json\n"

/-- The usage of the replay command. -/
def replayUsage : String :=
  "Replay a single seed with detailed output\n\n"
    ++ "Usage: arbor-sim replay [OPTIONS] --seed <SEED>\n\nOptions:\n"
    ++ columns
      ([formatRow, ("      --seed <SEED>", "Seed to replay")] ++ sharedRows ++ [helpRow])
    ++ "\nEXAMPLES:\n    # Replay seed 42\n    arbor-sim replay --seed 42\n\n"
    ++ "# Replay with the parameters of a failed campaign\n"
    ++ "    arbor-sim replay --seed 42 --rounds 128 --fork-rate 25\n"

/-- The usage of the help command. -/
def helpUsage : String :=
  helpAbout ++ "\n\nUsage: arbor-sim help [COMMAND]...\n\nArguments:\n"
    ++ columns [("  [COMMAND]...", "Print help for the subcommand(s)")]

/-- The usage of a command, or of the program. -/
def usage : Option String → String
  | some "run" => runUsage
  | some "replay" => replayUsage
  | some "help" => helpUsage
  | _ => programUsage

end Command

end ShardLedger
