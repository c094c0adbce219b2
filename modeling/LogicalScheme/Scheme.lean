import LogicalScheme.Failure
import LogicalScheme.Loop
import LogicalScheme.Parsed
import LogicalScheme.Settings
import LogicalScheme.Trace

/-!
This module contains schemes, which are accepted texts ready to be run and analysed. The values of
conditions live in the automaton of a scheme and are the only part of it that operations change.
-/

namespace LogicalScheme

structure Scheme where
  automaton : Automaton
  lexemes : List Lexeme
  warnings : List Diagnostic := []
  maxConditionals : Nat
  deriving DecidableEq

structure SchemeView where
  elements : Array Element
  jumpPoints : List (UInt32 × ElementRef)

def Automaton.matrix (a : Automaton) (build : SchemeView → β) : β × Automaton :=
  let a := a.reset
  (build ⟨a.elements, a.jumpPoints⟩, a)

namespace Scheme

def unreachable (s : Scheme) : List ElementRef :=
  match s.automaton.start? with
  | some start => s.automaton.unreachableFrom start
  | none => []

def unreachableWarning (s : Scheme) (r : ElementRef) : Diagnostic :=
  let name := s.automaton.name r
  let position := s.automaton.position r
  { severity := .warning
    message := s!"`{name}` can never be reached from the start"
    code := some .unreachableElement
    position := some position
    labels := (s.lexemes[position]?.map fun l => Label.mark l.span "unreachable element").toList }

/--
Read a scheme. Under the setting for it, a scheme with warnings is rejected with all warnings as
errors.
-/
def parse (settings : Settings) (text : String) : Except Failure Scheme :=
  match LogicalScheme.parse text with
  | .error e => .error (.malformed e (Text.normalize text))
  | .ok p =>
    let s : Scheme :=
      { automaton := p.automaton
        lexemes := p.lexemes
        maxConditionals := settings.maxConditionals }
    let warnings := p.diagnostics ++ s.unreachable.map s.unreachableWarning
    if settings.warningsAsErrors && !warnings.isEmpty then
      .error (.malformed (.ofDiagnostics (warnings.map (·.promote))) (Text.normalize text))
    else
      .ok { s with warnings }

def conditionalCount (s : Scheme) : Nat :=
  s.automaton.conditionalCount

def run (s : Scheme) (verbose : Bool) : Except UsageError Trace :=
  s.automaton.run verbose

/--
Give all conditions their values, then run. A text that is no vector for the scheme changes nothing.
-/
def runWith (s : Scheme) (bits : String) (verbose : Bool) : Except UsageError Trace × Scheme :=
  match s.automaton.assignText bits with
  | .ok automaton => (automaton.run verbose, { s with automaton })
  | .error e => (.error e, s)

def runAsking {σ ε : Type} (s : Scheme) (oracle : Oracle σ ε) (verbose : Bool) (state : σ)
    : Except (Interruption ε) Trace × Scheme × σ :=
  let (result, automaton, state) := s.automaton.runAsking oracle verbose state
  (result, { s with automaton }, state)

def reset (s : Scheme) : Scheme :=
  { s with automaton := s.automaton.reset }

def matrix (s : Scheme) (build : SchemeView → β) : β × Scheme :=
  let (result, automaton) := s.automaton.matrix build
  (result, { s with automaton })

def loopsUnder (s : Scheme) (bits : String) : Except UsageError (List Loop) × Scheme :=
  match s.runWith bits false with
  | (.ok t, s) => (.ok (Loop.ofPath s.automaton t.path), s)
  | (.error e, s) => (.error e, s)

/--
Run under `count` vectors whose masks follow each other from `mask` on. After each run `visit` says
whether to go on. The result counts the runs on top of `examined`.
-/
def visitMasks {σ : Type} (visit : σ → ConditionVector → Trace → ForInStep σ) (a : Automaton)
    (state : σ) (mask : UInt64) (examined : Nat) : Nat → Except UsageError Nat × σ
  | 0 => (.ok examined, state)
  | count + 1 =>
    let v := ConditionVector.ofMask mask a.conditionalCount
    let a := a.assign v
    match a.run false with
    | .error e => (.error e, state)
    | .ok t =>
      match visit state v t with
      | .done state => (.ok (examined + 1), state)
      | .yield state => visitMasks visit a state (mask + 1) (examined + 1) count

/--
The most conditional vertices of a scheme whose condition vectors are all tried. A vector has to
fit a mask, with room for the number of all vectors.
-/
def limit (s : Scheme) : Nat :=
  min s.maxConditionals 63

/--
Run under every condition vector in lexicographic order, until `visit` stops it. The result counts
the runs. All conditions are without values afterwards.
-/
def forEachVector {σ : Type} (s : Scheme) (visit : σ → ConditionVector → Trace → ForInStep σ)
    (state : σ) : Except UsageError Nat × Scheme × σ :=
  let count := s.conditionalCount
  if count > s.limit then
    (.error (.tooManyConditionals count s.limit), s, state)
  else
    let (result, state) := visitMasks visit s.automaton state 0 0 (Nat.pow 2 count)
    (result, s.reset, state)

def findLoops (s : Scheme) : Except UsageError LoopReport × Scheme :=
  let (result, t, report) := s.forEachVector
    (fun report v t => .yield (report.record v (Loop.ofPath s.automaton t.path))) ({} : LoopReport)
  (result.map fun _ => report, t)

end Scheme

end LogicalScheme
