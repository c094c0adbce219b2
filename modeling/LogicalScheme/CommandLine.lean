/-!
This module contains the command line. Options may stand in front of the command word and behind it.
An option that takes a value keeps waiting for it until the next word, and what waited is settled
when the next option or input comes or the words end.
-/

namespace LogicalScheme

inductive Command where
  | tokens
  | run (conditions : String)
  | step
  | loops
  | results
  deriving DecidableEq

structure CommandLine where
  command : Command
  /-- The path of the scheme. -/
  input : String
  /-- The path of the settings. -/
  config : Option String := none
  verbose : Bool := false
  logLevel : String := "info"
  deriving DecidableEq

namespace CommandLine

/--
Why words are not carried out. Help and the version are asked for, the others are mistakes.
-/
inductive Refusal where
  | help
  | version
  | nothingGiven
  | missingCommand
  | unknownCommand
  | missingInput
  | unknownWord
  | missingValue
  | repeated
  /-- A value for an option that takes none. -/
  | needlessValue
  deriving DecidableEq

def Refusal.message : Refusal → String
  | .help => "help was asked for"
  | .version => "the version was asked for"
  | .nothingGiven => "no command is given"
  | .missingCommand => "a command is required"
  | .unknownCommand => "unrecognized command"
  | .missingInput => "the path of a scheme is required"
  | .unknownWord => "unexpected argument"
  | .missingValue => "an option lacks its value"
  | .repeated => "an option cannot be used multiple times"
  | .needlessValue => "an option takes no value"

def usage : String :=
  "Usage: lsa [OPTIONS] <COMMAND> <INPUT>\n\n" ++
  "Commands:\n" ++
  "  tokens   List the tokens of the scheme\n" ++
  "  run      Run the scheme under one condition vector\n" ++
  "  step     Run the scheme, asking for each condition\n" ++
  "  loops    Find the loops reachable under any condition vector\n" ++
  "  results  Run every condition vector and print each path\n\n" ++
  "Options:\n" ++
  "  -c, --config <CONFIG>          Path to configuration file (TOML)\n" ++
  "  -v, --verbose                  Print element descriptions instead of bare ids\n" ++
  "      --log-level <LOG_LEVEL>    off, error, warn, info, debug or trace\n" ++
  "  -x, --conditions <CONDITIONS>  One digit per conditional vertex, for run\n" ++
  "  -h, --help                     Print help\n" ++
  "  -V, --version                  Print version\n"

inductive Verb where
  | tokens
  | run
  | step
  | loops
  | results
  deriving DecidableEq

inductive Key where
  | config
  | logLevel
  | conditions
  | verbose
  | help
  | version
  deriving DecidableEq

namespace Verb

def text : Verb → String
  | .tokens => "tokens"
  | .run => "run"
  | .step => "step"
  | .loops => "loops"
  | .results => "results"

def ofText? (word : String) : Option Verb :=
  [tokens, run, step, loops, results].find? (·.text == word)

def command (conditions : String) : Verb → Command
  | .tokens => .tokens
  | .run => .run conditions
  | .step => .step
  | .loops => .loops
  | .results => .results

end Verb

namespace Key

def takesValue : Key → Bool
  | .config | .logLevel | .conditions => true
  | .verbose | .help | .version => false

def long : Key → String
  | .config => "config"
  | .logLevel => "log-level"
  | .conditions => "conditions"
  | .verbose => "verbose"
  | .help => "help"
  | .version => "version"

def short? : Key → Option Char
  | .config => some 'c'
  | .logLevel => none
  | .conditions => some 'x'
  | .verbose => some 'v'
  | .help => some 'h'
  | .version => some 'V'

end Key

inductive Level where
  | front
  | behind (verb : Verb)
  deriving DecidableEq

namespace Level

def keys : Level → List Key
  | .front => [.config, .logLevel, .verbose, .help, .version]
  | .behind .run => [.config, .logLevel, .verbose, .help, .conditions]
  | .behind _ => [.config, .logLevel, .verbose, .help]

def long? (level : Level) (name : String) : Option Key :=
  level.keys.find? (·.long == name)

def short? (level : Level) (letter : Char) : Option Key :=
  level.keys.find? (·.short? == some letter)

def isCommand (level : Level) (word : String) : Bool :=
  level == .front && (word == "help" || (Verb.ofText? word).isSome)

end Level

structure Given where
  verbose : Bool := false
  input : Option String := none
  /-- The options with values that are settled. -/
  values : List (Key × String) := []
  /-- The last option, until it is settled. -/
  pending : Option (Key × Option String) := none

namespace Given

def isAwaiting (g : Given) : Bool :=
  g.pending.any (·.2.isNone)

def isEmpty (g : Given) : Bool :=
  g.values.isEmpty && !g.verbose

def put (g : Given) (key : Key) (value : String) : Except Refusal Given :=
  if (g.values.lookup key).isSome then
    .error .repeated
  else
    .ok { g with values := (key, value) :: g.values }

/--
Settle the last option. It needs a value and must not have been there before.
-/
def settle (g : Given) : Except Refusal Given :=
  match g.pending with
  | none => .ok g
  | some (_, none) => .error .missingValue
  | some (key, some value) => { g with pending := none }.put key value

def raise (g : Given) (key : Key) : Except Refusal Given := do
  let g ← g.settle
  match key with
  | .help => throw .help
  | .version => throw .version
  | _ => if g.verbose then throw .repeated else return { g with verbose := true }

def takeValue (g : Given) (key : Key) (value : Option String) : Except Refusal Given := do
  let g ← g.settle
  match value with
  | some value => g.put key value
  | none => return { g with pending := some (key, none) }

def takeLong (g : Given) (level : Level) (name : String) (value : Option String)
    : Except Refusal Given :=
  match level.long? name with
  | none => .error .unknownWord
  | some key =>
    if key.takesValue then
      g.takeValue key value
    else if value.isSome then
      .error .needlessValue
    else
      g.raise key

/--
What is attached to the letter of an option. An equals sign in front of the value may be left out.
-/
def attached? : List Char → Option String
  | [] => none
  | '=' :: cs => some (String.ofList cs)
  | cs => some (String.ofList cs)

/--
Take the options with the letters `cs`. The characters behind the letter of an option with a value
are its value.
-/
def takeShort (g : Given) (level : Level) : List Char → Except Refusal Given
  | [] => .ok g
  | c :: cs =>
    match level.short? c with
    | none => .error .unknownWord
    | some key =>
      if key.takesValue then
        g.takeValue key (attached? cs)
      else do
        takeShort (← g.raise key) level cs

/--
Take a word that is no option. It is the value that is waited for, or the one input behind the
command word.
-/
def takeWord (g : Given) (level : Level) (isTrailing : Bool) (word : String)
    : Except Refusal Given :=
  match g.pending, isTrailing, level with
  | some (key, none), false, _ => .ok { g with pending := some (key, some word) }
  | _, _, .front =>
    .error (if isTrailing && level.isCommand word then .unknownWord else .unknownCommand)
  | _, _, .behind _ =>
    if g.input.isSome then
      .error .unknownWord
    else
      g.settle.map ({ · with input := some word })

end Given

def splitLong (cs : List Char) : String × Option String :=
  (String.ofList (cs.takeWhile (· != '=')),
    (cs.dropWhile (· != '=')).tail?.map String.ofList)

def refuseHelp : List String → Refusal
  | [] => .help
  | [word] => if Level.front.isCommand word then .help else .unknownCommand
  | _ => .unknownCommand

/--
Take words up to a command word, which is in the result with the words behind it. Behind two dashes
there are no options and no command words.
-/
def take (level : Level) (isTrailing : Bool) (g : Given)
    : List String → Except Refusal (Given × Option (Verb × List String))
  | [] => .ok (g, none)
  | word :: words =>
    if !isTrailing && !g.isAwaiting && level.isCommand word then
      match Verb.ofText? word with
      | some verb => .ok (g, some (verb, words))
      | none => .error (refuseHelp words)
    else
      match isTrailing, word.toList with
      | false, ['-', '-'] => take level true g words
      | false, '-' :: '-' :: cs => do
        let (name, value) := splitLong cs
        take level false (← g.takeLong level name value) words
      | false, '-' :: c :: cs => do
        take level false (← g.takeShort level (c :: cs)) words
      | _, _ => do
        take level isTrailing (← g.takeWord level isTrailing word) words

/--
Understand the words behind the name of the program. What is said behind the command word goes
before what is said in front of it.
-/
def parse (words : List String) : Except Refusal CommandLine := do
  let (front, rest?) ← take .front false {} words
  match rest? with
  | none =>
    let front ← front.settle
    throw (if front.isEmpty then .nothingGiven else .missingCommand)
  | some (verb, rest) =>
    let (behind, _) ← take (.behind verb) false {} rest
    let behind ← behind.settle
    let some input := behind.input | throw .missingInput
    let front ← front.settle
    let value? (key : Key) := (behind.values.lookup key).or (front.values.lookup key)
    return {
      command := verb.command ((value? .conditions).getD "")
      input
      config := value? .config
      verbose := behind.verbose || front.verbose
      logLevel := (value? .logLevel).getD "info" }

end CommandLine

end LogicalScheme
