import ShardLedger.Simulation.Campaign

/-!
# Command lines

What the words of a command line ask for. An option takes its value from the same word, after an
equals sign, or from the next one, and may be given once. The output format may be chosen before
or after the command; where it is chosen in both places the later one counts.

A value in the same word is judged at once. One that stands in a word of its own is judged with
what follows it, and where that is a command, only after the words of the command: a call for help
there is answered whatever stands before the command.

- `Command.parse`: the request of a command line.
-/

namespace ShardLedger

/-- How results are written. -/
inductive Format where
  | text
  | json
deriving DecidableEq, Inhabited

/-- What a command line asks for. -/
inductive Request where
  /-- The version of the program. -/
  | version
  /-- How the program, or one of its commands, is used. -/
  | help (command : Option String)
  /-- A campaign. -/
  | run (format : Format) (campaign : Campaign)
  /-- One seed of a campaign, in detail. -/
  | replay (format : Format) (seed : Nat) (campaign : Campaign)
  /-- The words make no sense. -/
  | misuse
deriving DecidableEq

namespace Command

/-- The value of a decimal number: digits, perhaps after a plus sign. -/
def natural? (word : String) : Option Nat :=
  let digits := match word.toList with
    | '+' :: rest => rest
    | cs => cs
  if digits.isEmpty || !digits.all (fun c => '0' ≤ c && c ≤ '9') then none
  else some (digits.foldl (fun n c => n * 10 + (c.toNat - 48)) 0)

/-- A 64-bit number. -/
def word? (word : String) : Option Nat := (natural? word).filter (· < UInt64.size)

/-- A number of one byte. Zero may carry a minus sign. -/
def byte? (word : String) : Option Nat :=
  match word.toList with
  | '-' :: digits => if !digits.isEmpty && digits.all (· = '0') then some 0 else none
  | _ => (natural? word).filter (· < 256)

/-- A format by its name. -/
def format? : String → Option Format
  | "text" => some .text
  | "json" => some .json
  | _ => none

/-- The options that were given, with their values. -/
abbrev Options := List (String × String)

/-- The value of an option. -/
def given? (options : Options) (name : String) : Option String :=
  (options.find? (·.1 = name)).map (·.2)

/-- Whether a value is one that the option takes. -/
def accepts (name value : String) : Bool :=
  match name with
  | "format" => (format? value).isSome
  | "fork-rate" | "duplicate-rate" | "reorder-rate" | "max-delay" => (byte? value).isSome
  | _ => (word? value).isSome

/-- The options of every command. -/
def sharedOptions : List String :=
  ["format", "rounds", "content-rounds", "proposers", "items", "fork-rate", "duplicate-rate",
   "reorder-rate", "max-delay"]

/-- The options of a command. -/
def optionsOf : String → List String
  | "run" => ["seeds", "seed-start"] ++ sharedOptions
  | "replay" => "seed" :: sharedOptions
  | _ => ["format"]

/-- A word that starts with two dashes, cut at the equals sign. -/
def longOption? (word : String) : Option (String × Option String) :=
  match word.toList with
  | '-' :: '-' :: c :: rest =>
    let body := c :: rest
    let name := String.ofList (body.takeWhile (· ≠ '='))
    match body.dropWhile (· ≠ '=') with
    | [] => some (name, none)
    | _ :: value => some (name, some (String.ofList value))
  | _ => none

/-- Whether a word can only be an option: it starts with a dash and goes on. -/
def isOption (word : String) : Bool :=
  match word.toList with
  | '-' :: _ :: _ => true
  | _ => false

/-- What a row of words comes to. -/
inductive Scan where
  /-- All words were options. -/
  | done (options : Options)
  /-- A word that is no option follows the options. There are no options if the value that stands
  right before it is unfit. -/
  | word (options : Option Options) (word : String) (rest : List String)
  | help
  | version
  | misuse

/-- Note the value of an option, unless it has one or does not take this one. -/
def note? (names : List String) (options : Options) (name value : String) : Option Options :=
  if names.contains name && (given? options name).isNone && accepts name value then
    some (options ++ [(name, value)])
  else none

/-- Go through options up to the first other word. The version can be asked for before the
command only. -/
def scan (names : List String) (atTop : Bool) (options : Options) : List String → Scan
  | [] => .done options
  | word :: rest =>
    if word = "--help" || word.startsWith "-h" then .help
    else if word = "--version" || word.startsWith "-V" then if atTop then .version else .misuse
    else if word = "--" then if rest.isEmpty then .done options else .misuse
    else match longOption? word with
      | some (name, some value) =>
        match note? names options name value with
        | some options => scan names atTop options rest
        | none => .misuse
      | some (name, none) =>
        match rest with
        | [] => .misuse
        | value :: rest =>
          if isOption value || !names.contains name then .misuse
          else match note? names options name value with
            | some options => scan names atTop options rest
            | none =>
              match rest with
              | [] => .misuse
              | next :: rest => if isOption next then .misuse else .word none next rest
      | none => if isOption word then .misuse else .word (some options) word rest

/-- The number that an option gives. -/
def number (options : Options) (name : String) (default : Nat) : Nat :=
  match given? options name with
  | none => default
  | some value => ((word? value).orElse fun _ => byte? value).getD default

/-- The campaign that the options of a command describe. -/
def campaignOf (options : Options) (start seeds : Nat) : Campaign :=
  { seedStart := start, seedEnd := addCapped start seeds
    setup :=
      { rounds := number options "rounds" 64
        contentRounds := number options "content-rounds" 32
        proposers := number options "proposers" 3
        itemsPerRound := number options "items" 4
        forkPercent := number options "fork-rate" 10
        faults :=
          { maxDelay := number options "max-delay" 2
            duplicatePercent := number options "duplicate-rate" 5
            reorderPercent := number options "reorder-rate" 20 } } }

/-- The request of a command with its options. A replay needs a seed. -/
def requestOf (command : String) (format : Format) (options : Options) : Request :=
  let format := ((given? options "format").bind format?).getD format
  match command with
  | "run" =>
    .run format
      (campaignOf options (number options "seed-start" 0) (number options "seeds" 100))
  | _ =>
    match (given? options "seed").bind word? with
    | none => .misuse
    | some seed => .replay format seed (campaignOf options seed 1)

/-- The commands that do something. -/
def commands : List String := ["run", "replay"]

/-- What follows the word help. There is help on the commands and on help itself. -/
def helpOn : List String → Request
  | [] => .help none
  | [command] =>
    if commands.contains command || command = "help" then .help (some command) else .misuse
  | _ => .misuse

/-- The request of a command line. -/
def parse (words : List String) : Request :=
  match scan (optionsOf "") true [] words with
  | .help => .help none
  | .version => .version
  | .done _ | .misuse => .misuse
  | .word options command rest =>
    if command = "help" then helpOn rest
    else if !commands.contains command then .misuse
    else match scan (optionsOf command) false [] rest with
      | .done given =>
        match options with
        | none => .misuse
        | some options =>
          requestOf command (((given? options "format").bind format?).getD .text) given
      | .help => .help (some command)
      | .version | .misuse | .word .. => .misuse

end Command

end ShardLedger
