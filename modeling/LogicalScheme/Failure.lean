import LogicalScheme.ConditionVector
import LogicalScheme.Diagnostic

/-!
This module contains the ways in which work on a scheme fails.
-/

namespace LogicalScheme

inductive InputError where
  | missing
  | directory
  | notDirectory
  | longName
  /-- A path has a character with the code 0. -/
  | brokenPath
  | notText
  /-- There was no answer to the question for a condition. -/
  | noAnswer (name : Name)
  | other (message : String)
  deriving DecidableEq

def InputError.message : InputError → String
  | .missing => "No such file or directory (os error 2)"
  | .directory => "Is a directory (os error 21)"
  | .notDirectory => "Not a directory (os error 20)"
  | .longName => "File name too long (os error 36)"
  | .brokenPath => "file name contained an unexpected NUL byte"
  | .notText => "stream did not contain valid UTF-8"
  | .noAnswer name => s!"no value given for `{name}`"
  | .other message => message

inductive ConfigurationError where
  | missing (path : String)
  | malformed
  | noConditionals
  | other (message : String)
  deriving DecidableEq

def ConfigurationError.message : ConfigurationError → String
  | .missing path => s!"Missing configuration file: {path}"
  | .malformed => "Failed to parse TOML configuration: "
  | .noConditionals => "Validation error: analysis.max_conditionals must be at least 1"
  | .other message => message

inductive Failure where
  | input (error : InputError)
  /-- A scheme was rejected. The spans of its diagnostics refer to `source`. -/
  | malformed (error : Malformed) (source : String)
  | usage (error : UsageError)
  | configuration (error : ConfigurationError)
  deriving DecidableEq

def Failure.message : Failure → String
  | .input error => s!"I/O error: {error.message}"
  | .malformed error _ => error.text
  | .usage error => s!"Usage error: {error.message}"
  | .configuration error => s!"Configuration error: {error.message}"

end LogicalScheme
