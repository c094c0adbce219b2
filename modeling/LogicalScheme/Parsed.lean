import LogicalScheme.Checks
import LogicalScheme.Piece

/-!
This module contains the way from the text of a scheme to its automaton.
-/

namespace LogicalScheme

structure Parsed where
  automaton : Automaton
  lexemes : List Lexeme
  /-- All problems in the order in which they were found. -/
  diagnostics : List Diagnostic
  deriving DecidableEq

namespace Parsed

/--
Make the best of a text. Spans refer to the normalized text.
-/
def ofText (text : String) : Parsed :=
  let source := Text.normalize text
  let pieces := Piece.ofText source
  let lexemes := Piece.lexemes pieces
  let draft : Draft := { source, lexemes := lexemes.toArray }
  let assembly := Assembly.ofDraft draft
  let (automaton, problems) := assembly.automaton.check draft
  { automaton, lexemes
    diagnostics := Piece.diagnostics 0 pieces ++ assembly.diagnostics.toList ++ problems }

def accept (p : Parsed) : Except Malformed Parsed :=
  if p.diagnostics.any (·.isError) then .error (.ofDiagnostics p.diagnostics) else .ok p

end Parsed

/--
Read a scheme. Only warnings are left in what is accepted.
-/
def parse (text : String) : Except Malformed Parsed :=
  (Parsed.ofText text).accept

end LogicalScheme
