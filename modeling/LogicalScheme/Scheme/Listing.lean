import LogicalScheme.Scheme

/-!
This module contains listings of a scheme for readers.
-/

namespace LogicalScheme

namespace Scheme

def alignRight (width : Nat) (text : String) : String :=
  String.ofList (text.toList.leftpad width ' ')

def alignLeft (width : Nat) (text : String) : String :=
  String.ofList (text.toList.rightpad width ' ')

def tokenLine (a : Automaton) (position : Nat) (text : String) : String :=
  let kind := (((a.elementAt? position).bind a.element?).map (·.kind.text)).getD "-"
  let number := alignRight 4 (toString position)
  let word := alignLeft 6 text
  s!"{number}  {word} {kind}\n"

def listTokens (s : Scheme) : String :=
  let a := s.automaton
  String.join (a.tokens.zipIdx.map fun (text, position) => tokenLine a position text)

def loopLines (number : Nat) (l : Loop) (vectors : List ConditionVector) : String :=
  let conditions := ", ".intercalate (vectors.map (·.text))
  s!"loop {number}: {l}\n  conditions: {conditions}\n"

def reportLines (report : LoopReport) : String :=
  let assignments := report.assignments
  match report.loops.length with
  | 0 => s!"no loops in {assignments} assignment(s)\n"
  | count =>
    s!"{count} loop(s) in {assignments} assignment(s)\n" ++
      String.join (report.loops.zipIdx.map fun ((l, vectors), i) => loopLines (i + 1) l vectors)

def listLoops (s : Scheme) : Except UsageError String × Scheme :=
  let (result, s) := s.findLoops
  (result.map reportLines, s)

def resultLine (v : ConditionVector) (t : Trace) : String :=
  let vector := if v.isEmpty then "-" else v.text
  s!"{vector}: {t} ({t.outcome})\n"

def listResults (s : Scheme) : Except UsageError String × Scheme :=
  let (result, s, lines) := s.forEachVector
    (fun lines v t => .yield (lines ++ resultLine v t)) ""
  (result.map fun _ => lines, s)

end Scheme

end LogicalScheme
