import LogicalScheme.CommandLine.Execution
import LogicalScheme.FileTree

/-!
This module contains the program for the command line.
-/

namespace LogicalScheme.Main

def readFile (path : String) : IO (Except InputError (List UInt8)) := do
  if let some e := FileTree.refusal? path then
    return .error e
  try
    return .ok (← IO.FS.readBinFile path).data.toList
  catch e =>
    match e with
    | .noFileOrDirectory _ _ _ => return .error .missing
    | .inappropriateType _ code _ =>
      return .error (if code = 21 then .directory else .notDirectory)
    | .invalidArgument _ code _ =>
      return .error (if code = 36 || code = -36 then .longName else .other (toString e))
    | _ => return .error (.other (toString e))

def userConfig : IO (Option String) := do
  let configHome := (← IO.getEnv "XDG_CONFIG_HOME").filter (·.startsWith "/")
  let home := (← IO.getEnv "HOME").map (· ++ "/.config")
  return (configHome.or home).map (· ++ "/lsa/config.toml")

def surroundings (c : CommandLine) : IO Surroundings := do
  let userConfig ← userConfig
  let paths := c.input :: Surroundings.localConfig :: (c.config.toList ++ userConfig.toList)
  let files ← paths.mapM fun path => return (path, ← readFile path)
  return { read := fun path => (files.lookup path).getD (.error .missing), userConfig }

partial def readLine (input : IO.FS.Stream) : IO (List UInt8) := do
  match (← input.read 1).data.toList with
  | [] => return []
  | 0x0A :: _ => return [0x0A]
  | bytes => return bytes ++ (← readLine input)

/--
Carry out a command line whose answers come in line by line. It is carried out again for each line
that is read, and what the prompt writes grows with the lines.
-/
partial def converse (c : CommandLine) (s : Surroundings) (lines : List (List UInt8))
    (shown : Nat) : IO Execution := do
  let execution := c.execute s { lines }
  let output := execution.prompt.output
  let stdout ← IO.getStdout
  stdout.putStr (String.ofList (output.toList.drop shown))
  stdout.flush
  match execution.result with
  | .error (.input (.noAnswer _)) =>
    let line ← readLine (← IO.getStdin)
    if line.isEmpty then
      return execution
    else
      converse c s (lines ++ [line]) output.length
  | _ => return execution

/--
How much a log level lets through: errors from 1 on and warnings from 2 on.
-/
def loudness (logLevel : String) : Nat :=
  match String.ofList (logLevel.toList.map Char.toLower) with
  | "off" => 0
  | "error" => 1
  | _ => 2

def printReport (r : Report) : IO Unit := do
  let code := (r.code.map fun code => s!"[{code}]").getD ""
  IO.eprintln s!"{r.severity}{code}: {r.message}"
  if let some help := r.help then
    IO.eprintln s!"  help: {help}"

def runCommand (c : CommandLine) : IO UInt32 := do
  let execution ← converse c (← surroundings c) [] 0
  if 2 ≤ loudness c.logLevel then
    execution.warnings.forM printReport
  match execution.result with
  | .ok output => IO.print output
  | .error failure =>
    if 1 ≤ loudness c.logLevel then
      (Report.all failure).forM printReport
  return execution.exit.code

end LogicalScheme.Main

def main (words : List String) : IO UInt32 := do
  match LogicalScheme.CommandLine.parse words with
  | .ok c => LogicalScheme.Main.runCommand c
  | .error refusal =>
    let exit := refusal.exit
    IO.print exit.output
    if exit.code ≠ 0 then
      IO.eprintln s!"error: {refusal.message}"
    return exit.code
