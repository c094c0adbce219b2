import LogicalScheme.Failure

/-!
This module contains reports, which present problems to the user together with hints.
-/

namespace LogicalScheme

structure Report where
  message : String
  code : Option String := none
  severity : Severity := .error
  help : Option String := none
  /-- The text that the labels refer to. -/
  source : Option String := none
  labels : List Label := []
  deriving DecidableEq

def UsageError.help : UsageError → Option String
  | .vectorLength expected _ =>
    some s!"pass {expected} digits with --conditions, one `0` or `1` per conditional vertex"
  | .vectorCharacter _ _ =>
    some "write the vector with `0` and `1` only, e.g. `--conditions 0110`"
  | .tooManyConditionals _ _ =>
    some ("raise `analysis.max_conditionals` in the configuration, or check single " ++
      "vectors with `lsa run`")
  | .undeterminedCondition _ => none
  | .unknownConditional _ => none

namespace Failure

def code : Failure → Option String
  | .input _ => some "lsa::io"
  | .malformed _ _ => none
  | .usage _ => some "lsa::usage"
  | .configuration _ => some "lsa::config"

def help : Failure → Option String
  | .input _ => some "check that the scheme file exists and is readable"
  | .malformed _ _ => none
  | .usage error => error.help
  | .configuration _ =>
    some ("configuration is read from --config, then `lsa/config.toml`, " ++
      "then the platform config directory")

end Failure

namespace Report

def ofDiagnostic (source : String) (d : Diagnostic) : Report :=
  { message := d.message
    code := d.code.map (·.text)
    severity := d.severity
    help := d.help
    source := some source
    labels := d.labels }

def ofFailure (f : Failure) : Report :=
  { message := f.message, code := f.code, help := f.help }

def all : Failure → List Report
  | .malformed error source => error.diagnostics.map (ofDiagnostic source)
  | f => [ofFailure f]

end Report

end LogicalScheme
