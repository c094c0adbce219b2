import LogicalScheme.Assembly

/-!
This module contains the checks of an assembled automaton: markers are single, jumps have targets,
jump points lead somewhere and conditional vertices have both branches. No check stops the others.
-/

namespace LogicalScheme

namespace Checks

/--
The span of the lexeme at `position`. Where there is no lexeme it is empty and in front of the text.
-/
def span (d : Draft) (position : Nat) : Span :=
  (d.lexemes[position]?.map (·.span)).getD (.empty 0)

/--
The report that something that has to be single stands at all of `positions`. One position is fine.
-/
def duplicates (d : Draft) (code : Code) (what : String) (positions : List Nat) : List Diagnostic :=
  match positions with
  | first :: second :: rest =>
    let count := positions.length
    [{ severity := .error
       message := s!"{what} appears {count} times"
       code := some code
       position := some second
       labels := .context (span d first) "first occurrence" ::
         (second :: rest).map fun position => .mark (span d position) "duplicate"
       help := some s!"a scheme has exactly one {what}" }]
  | _ => []

def startPositions (d : Draft) : List Nat :=
  (List.range d.size).filter (d.token? · == some .start)

def finishPositions (a : Automaton) : List Nat :=
  (a.elements.toList.filter (·.isFinish)).map (·.position)

def unresolvedJump (d : Draft) (e : Element) (index : UInt32) : Diagnostic :=
  { severity := .error
    message := s!"`{e.name}` jumps to `↓{index}`, which is never declared"
    code := some .unresolvedJump
    position := some e.position
    labels := [.mark (span d e.position) "unresolved jump"]
    help := some s!"declare `↓{index}` where control should continue" }

def unresolvedJumps (d : Draft) (a : Automaton) : List Diagnostic :=
  a.elements.toList.filterMap fun e =>
    match e.jumpTarget? with
    | some index => if (a.jumpPoint? index).isNone then some (unresolvedJump d e index) else none
    | none => none

def danglingPoints (a : Automaton) : List ElementRef :=
  a.refs.filter fun r => (a.element? r).any fun e => e.isJumpPoint && e.next.isNone

def following? (a : Automaton) (position : Nat) : Option ElementRef :=
  (a.refs.filter (position < a.position ·)).minOn? a.position

/--
Give a jump point without successor the element that stands next, with a warning. At the end of the
scheme there is none.
-/
def completePoint (d : Draft) (a : Automaton) (point : ElementRef) : Automaton × Diagnostic :=
  let name := a.name point
  let position := a.position point
  match following? a position with
  | some r =>
    let successor := a.name r
    (match a.link point r with
      | .ok a => a
      | .error _ => a,
      { severity := .warning
        message := s!"jump point `{name}` has no successor; continuing with `{successor}`"
        code := some .inferredSuccessor
        position := some position
        labels :=
          [.mark (span d position) "successor inferred from text order",
            .context (span d (a.position r)) "used as successor"] })
  | none =>
    (a,
      { severity := .error
        message := s!"jump point `{name}` leads nowhere"
        code := some .strayJumpPoint
        position := some position
        labels := [.mark (span d position) Code.strayJumpPoint.description]
        help := some "place an element or `Yк` after the jump point" })

def completePoints (d : Draft) (a : Automaton) : List ElementRef → Automaton × List Diagnostic
  | [] => (a, [])
  | point :: points =>
    let (a, diagnostic) := completePoint d a point
    let (a, diagnostics) := completePoints d a points
    (a, diagnostic :: diagnostics)

def missingBranch? (c : Conditional) : Option String :=
  match c.whenTrue, c.whenFalse with
  | some _, some _ => none
  | none, some _ => some "jump taken when true"
  | some _, none => some "branch taken when false"
  | none, none => some "both branches"

def incompleteConditional (d : Draft) (e : Element) (missing : String) : Diagnostic :=
  { severity := .error
    message := s!"conditional vertex `{e.name}` is missing its {missing}"
    code := some .incompleteConditional
    position := some e.position
    labels := [.mark (span d e.position) Code.incompleteConditional.description] }

def incompleteConditionals (d : Draft) (a : Automaton) : List Diagnostic :=
  a.elements.toList.filterMap fun e =>
    (e.conditional?.bind missingBranch?).map (incompleteConditional d e)

end Checks

/--
Run all checks. Jump points may be given successors.
-/
def Automaton.check (a : Automaton) (d : Draft) : Automaton × List Diagnostic :=
  let starts := Checks.duplicates d .duplicateStart "start marker `Yн`" (Checks.startPositions d)
  let finishes := Checks.duplicates d .duplicateFinish "end marker `Yк`" (Checks.finishPositions a)
  let jumps := Checks.unresolvedJumps d a
  let (a, points) := Checks.completePoints d a (Checks.danglingPoints a)
  (a, starts ++ finishes ++ jumps ++ points ++ Checks.incompleteConditionals d a)

end LogicalScheme
