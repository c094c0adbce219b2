import LogicalScheme.Span

/-!
This module contains diagnostics, the problems that are found in a scheme, and the error that
gathers all diagnostics of a malformed scheme.
-/

namespace LogicalScheme

inductive Severity where
  | error
  | warning
  deriving DecidableEq

inductive Code where
  | unrecognizedToken
  | missingStart
  | missingFinish
  | missingBranchJump
  | emptyBranch
  | conflictingSuccessor
  | duplicateJumpPoint
  | duplicateStart
  | duplicateFinish
  | unresolvedJump
  | incompleteConditional
  | strayJumpPoint
  | inferredSuccessor
  | unreachableElement
  deriving DecidableEq

/--
A message attached to a span. Primary labels mark what is wrong, the others give context.
-/
structure Label where
  span : Span
  message : String
  primary : Bool
  deriving DecidableEq

structure Diagnostic where
  severity : Severity
  message : String
  code : Option Code := none
  /-- The index of the token that the problem is about. -/
  position : Option Nat := none
  labels : List Label := []
  help : Option String := none
  deriving DecidableEq

namespace Severity

def text : Severity → String
  | .error => "error"
  | .warning => "warning"

instance : ToString Severity where
  toString := text

end Severity

namespace Code

/--
Every code. The first is found by the lexer, those from `E100` on while elements are assembled and
those from `E200` and `W200` on by the checks of the finished automaton.
-/
def all : List Code :=
  [.unrecognizedToken, .missingStart, .missingFinish, .missingBranchJump, .emptyBranch,
    .conflictingSuccessor, .duplicateJumpPoint, .duplicateStart, .duplicateFinish,
    .unresolvedJump, .incompleteConditional, .strayJumpPoint, .inferredSuccessor,
    .unreachableElement]

def text : Code → String
  | .unrecognizedToken => "E001"
  | .missingStart => "E100"
  | .missingFinish => "E101"
  | .missingBranchJump => "E102"
  | .emptyBranch => "E103"
  | .conflictingSuccessor => "E104"
  | .duplicateJumpPoint => "E105"
  | .duplicateStart => "E200"
  | .duplicateFinish => "E201"
  | .unresolvedJump => "E202"
  | .incompleteConditional => "E203"
  | .strayJumpPoint => "E204"
  | .inferredSuccessor => "W200"
  | .unreachableElement => "W201"

instance : ToString Code where
  toString := text

def description : Code → String
  | .unrecognizedToken => "unrecognized token"
  | .missingStart => "missing start marker"
  | .missingFinish => "missing end marker"
  | .missingBranchJump => "missing branch jump"
  | .emptyBranch => "empty sub-algorithm"
  | .conflictingSuccessor => "conflicting successor"
  | .duplicateJumpPoint => "duplicate jump point"
  | .duplicateStart => "duplicate start marker"
  | .duplicateFinish => "duplicate end marker"
  | .unresolvedJump => "unresolved jump"
  | .incompleteConditional => "incomplete conditional"
  | .strayJumpPoint => "jump point without successor"
  | .inferredSuccessor => "inferred jump point successor"
  | .unreachableElement => "unreachable element"

end Code

namespace Label

def mark (span : Span) (message : String) : Label :=
  ⟨span, message, true⟩

def context (span : Span) (message : String) : Label :=
  ⟨span, message, false⟩

end Label

namespace Diagnostic

def isError (d : Diagnostic) : Bool :=
  d.severity == .error

def primarySpan? (d : Diagnostic) : Option Span :=
  (d.labels.find? (·.primary)).map (·.span)

def promote (d : Diagnostic) : Diagnostic :=
  { d with severity := .error }

def text (d : Diagnostic) : String :=
  let code := d.code.elim "" fun code => s!"[{code}]"
  let position := d.position.elim "" fun position => s!" (token {position})"
  s!"{d.severity}{code}: {d.message}{position}"

instance : ToString Diagnostic where
  toString := text

/--
The order of diagnostics in an error: by the start of the primary span, and those without one last.
-/
def startsBefore (d e : Diagnostic) : Bool :=
  match d.primarySpan?, e.primarySpan? with
  | some s, some t => s.start ≤ t.start
  | none, some _ => false
  | _, none => true

end Diagnostic

structure Malformed where
  diagnostics : List Diagnostic
  deriving DecidableEq

namespace Malformed

/--
Order diagnostics by where they start. Those that start at the same place stay in order.
-/
def ofDiagnostics (ds : List Diagnostic) : Malformed :=
  ⟨ds.mergeSort Diagnostic.startsBefore⟩

def text (m : Malformed) : String :=
  let count := m.diagnostics.length
  let plural := if count = 1 then "" else "s"
  let lines := m.diagnostics.map fun d => s!"\n  {d}"
  s!"scheme is malformed ({count} diagnostic{plural})" ++ String.join lines

instance : ToString Malformed where
  toString := text

end Malformed

end LogicalScheme
