import LogicalScheme.CommandLine
import LogicalScheme.Prompt
import LogicalScheme.Report
import LogicalScheme.Scheme.Listing
import LogicalScheme.Settings.File

/-!
This module contains what a command line does: it looks for the settings, reads the scheme and
carries out the command.
-/

namespace LogicalScheme

structure Surroundings where
  /-- The content of the file at a path. -/
  read : String → Except InputError (List UInt8)
  /-- The path of the settings of the user, if the platform has a place for them. -/
  userConfig : Option String := none

namespace Surroundings

def has (s : Surroundings) (path : String) : Bool :=
  match s.read path with
  | .ok _ => true
  | .error .directory => true
  | .error _ => false

def readText (s : Surroundings) (path : String) : Except Failure String :=
  match s.read path with
  | .ok bytes => ((Text.decode? bytes).map .ok).getD (.error (.input .notText))
  | .error e => .error (.input e)

def localConfig : String :=
  "lsa/config.toml"

def loadSettings (s : Surroundings) (path : String) : Except Failure Settings := do
  if !s.has path then
    throw (.configuration (.missing path))
  let text ← s.readText path
  match Settings.ofText? text with
  | none => throw (.configuration .malformed)
  | some settings =>
    if settings.maxConditionals = 0 then
      throw (.configuration .noConditionals)
    return settings

/--
Find the settings: those that are asked for, or else those of the working directory or those of the
user. The first that are there count.
-/
def findSettings (s : Surroundings) (asked : Option String) : Except Failure Settings :=
  match asked with
  | some path => s.loadSettings path
  | none =>
    match (localConfig :: s.userConfig.toList).find? s.has with
    | some path => s.loadSettings path
    | none => .ok {}

end Surroundings

structure Execution where
  result : Except Failure String
  /-- The reports on a scheme that was accepted. -/
  warnings : List Report := []
  prompt : Prompt

def Interruption.failure : Interruption InputError → Failure
  | .oracle error => .input error
  | .usage error => .usage error

namespace CommandLine

def traceLine (t : Trace) : String :=
  s!"{t}\n"

def perform (command : Command) (verbose : Bool) (scheme : Scheme) (prompt : Prompt)
    : Except Failure String × Prompt :=
  match command with
  | .tokens => (.ok scheme.listTokens, prompt)
  | .run conditions =>
    (((scheme.runWith conditions verbose).1.map traceLine).mapError .usage, prompt)
  | .step =>
    let (result, _, prompt) := scheme.runAsking Prompt.oracle verbose prompt
    ((result.map traceLine).mapError Interruption.failure, prompt)
  | .loops => (scheme.listLoops.1.mapError .usage, prompt)
  | .results => (scheme.listResults.1.mapError .usage, prompt)

/--
Do what a command line says. Settings are looked for before the scheme is read.
-/
def execute (c : CommandLine) (s : Surroundings) (prompt : Prompt) : Execution :=
  let prepared : Except Failure (Bool × Scheme) := do
    let settings ← s.findSettings c.config
    let text ← s.readText c.input
    let scheme ← Scheme.parse settings text
    return (c.verbose || settings.verbose, scheme)
  match prepared with
  | .error failure => { result := .error failure, prompt }
  | .ok (verbose, scheme) =>
    let (result, prompt) := perform c.command verbose scheme prompt
    { result
      warnings := scheme.warnings.map (Report.ofDiagnostic scheme.automaton.source)
      prompt }

end CommandLine

structure Exit where
  code : UInt32
  output : String
  deriving DecidableEq

/--
The questions of the prompt are printed before the result, if there is one.
-/
def Execution.exit (e : Execution) : Exit :=
  match e.result with
  | .ok output => ⟨0, e.prompt.output ++ output⟩
  | .error _ => ⟨1, e.prompt.output⟩

namespace CommandLine

def Refusal.exit : Refusal → Exit
  | .help => ⟨0, usage⟩
  | .version => ⟨0, "lsa 0.1.0\n"⟩
  | _ => ⟨2, ""⟩

def program (words : List String) (s : Surroundings) (input : List UInt8) : Exit :=
  match parse words with
  | .error refusal => refusal.exit
  | .ok c => (c.execute s (Prompt.ofBytes input)).exit

end CommandLine

end LogicalScheme
