import LogicalScheme.Automaton
import LogicalScheme.Diagnostic
import LogicalScheme.Token

/-!
This module contains the assembly of an automaton from lexemes. Conditional vertices nest: the jump
behind a vertex is its branch when true, and the elements behind the jump, up to a place that closes
them, are its branch when false. Assembly reports problems and goes on, so it always has a result.
-/

namespace LogicalScheme

/--
What is assembled: the lexemes of a normalized text.
-/
structure Draft where
  source : String
  lexemes : Array Lexeme

namespace Draft

def size (d : Draft) : Nat :=
  d.lexemes.size

def token? (d : Draft) (position : Nat) : Option Token :=
  d.lexemes[position]?.map (·.token)

def span (d : Draft) (position : Nat) : Span :=
  (d.lexemes[position]?.map (·.span)).getD (.empty d.source.utf8ByteSize)

def name (d : Draft) (position : Nat) : Name :=
  ⟨(d.lexemes[position]?.map (·.text)).getD ""⟩

theorem lt_size_of_token? (d : Draft) {position : Nat} {token : Token}
    (h : d.token? position = some token) : position < d.size := by
  simp only [token?, Option.map_eq_some_iff, Array.getElem?_eq_some_iff] at h
  obtain ⟨_, ⟨hlt, _⟩, _⟩ := h
  exact hlt

def found (d : Draft) (position : Nat) (nothing : String) : String :=
  (d.token? position).elim nothing fun token => s!"found `{token}`"

def missingStart (d : Draft) : Diagnostic :=
  { severity := .error
    message := "scheme must begin with the start marker `Yн`"
    code := some .missingStart
    position := some 0
    labels := [.mark (d.span 0) (d.found 0 "empty scheme")]
    help := some "add `Yн` at the beginning of the scheme" }

def missingFinish (d : Draft) : Diagnostic :=
  { severity := .error
    message := "scheme has no end marker `Yк`"
    code := some .missingFinish
    position := some d.size
    labels := [.mark (d.span d.size) "expected `Yк` before the end of the scheme"]
    help := some "add `Yк` where the algorithm terminates" }

def missingBranchJump (d : Draft) (vertex position : Nat) : Diagnostic :=
  let name := d.name vertex
  { severity := .error
    message := s!"conditional vertex `{name}` must be followed by a jump `↑<n>`"
    code := some .missingBranchJump
    position := some position
    labels :=
      [.mark (d.span position) (d.found position "scheme ends here"),
        .context (d.span vertex) "conditional vertex"] }

end Draft

structure Assembly where
  automaton : Automaton
  /-- The elements that were made for lexemes in front of which a branch closed. -/
  ahead : List (Nat × ElementRef) := []
  /-- The number of conditional vertices so far. -/
  conditionals : Nat := 0
  diagnostics : Array Diagnostic := #[]

namespace Assembly

def span (s : Assembly) (d : Draft) (r : ElementRef) : Span :=
  d.span (s.automaton.position r)

def report (s : Assembly) (diagnostic : Diagnostic) : Assembly :=
  { s with diagnostics := s.diagnostics.push diagnostic }

def add (s : Assembly) (d : Draft) (kind : Kind) (position : Nat) : ElementRef × Assembly :=
  (s.automaton.elements.size,
    { s with automaton := s.automaton.add (d.name position) kind position })

/--
Add the jump point at `position` and declare it. The first declaration of a number counts.
-/
def addJumpPoint (s : Assembly) (d : Draft) (index : UInt32) (position : Nat)
    : ElementRef × Assembly :=
  let (point, s) := s.add d (.jumpPoint index) position
  match s.automaton.register index point with
  | .ok automaton => (point, { s with automaton })
  | .error first =>
    let name := d.name position
    (point, s.report
      { severity := .error
        message := s!"jump point `{name}` is declared more than once"
        code := some .duplicateJumpPoint
        position := some position
        labels :=
          [.mark (d.span position) "duplicate declaration",
            .context (s.span d first) "first declared here"]
        help := some "give each jump point a unique number" })

def link (s : Assembly) (d : Draft) (source target : ElementRef) : Assembly :=
  match s.automaton.link source target with
  | .ok automaton => { s with automaton }
  | .error existing =>
    let name := s.automaton.name source
    let successor := s.automaton.name existing
    s.report
      { severity := .error
        message := s!"`{name}` already continues with `{successor}`"
        code := some .conflictingSuccessor
        position := some (s.automaton.position source)
        labels :=
          [.mark (s.span d target) "second successor",
            .context (s.span d source) "element with two successors",
            .context (s.span d existing) "first successor"] }

/--
Link the element in front, if control falls through to here.
-/
def linkFrom (s : Assembly) (d : Draft) (previous : Option ElementRef) (target : ElementRef)
    : Assembly :=
  match previous with
  | some source => s.link d source target
  | none => s

/--
The element `r` if control falls through it, so that the next element is linked to it.
-/
def fallsThrough (s : Assembly) (r : ElementRef) : Option ElementRef :=
  if (s.automaton.element? r).any (·.kind.fallsThrough) then some r else none

/--
The element for the lexeme at `position`, where a branch closes. It is made once and then kept for
the elements around the branch.
-/
def terminator (s : Assembly) (d : Draft) (position : Nat) : Option ElementRef × Assembly :=
  match s.ahead.lookup position with
  | some r => (some r, s)
  | none =>
    let keep : ElementRef × Assembly → Option ElementRef × Assembly := fun (r, s) =>
      (some r, { s with ahead := (position, r) :: s.ahead })
    match d.token? position with
    | some (.jumpPoint index) => keep (s.addJumpPoint d index position)
    | some .finish => keep (s.add d .finish position)
    | _ => (none, s)

def emptyBranch (s : Assembly) (d : Draft) (vertex : ElementRef) (position : Nat) : Diagnostic :=
  let name := s.automaton.name vertex
  { severity := .error
    message := s!"branch of `{name}` has no elements"
    code := some .emptyBranch
    position := some position
    labels :=
      [.mark (d.span position) Code.emptyBranch.description,
        .context (s.span d vertex) "conditional vertex"]
    help := some "add the steps taken when the condition is false" }

abbrev Past (d : Draft) (cursor : Nat) :=
  { n : Nat // cursor < n ∧ n ≤ d.size }

abbrev Onward (d : Draft) (cursor : Nat) :=
  { n : Nat // cursor ≤ n ∧ n ≤ d.size }

/--
Add the jump that the conditional vertex at `cursor` takes when true, if one stands behind it. The
result has the cursor behind the jump.
-/
def branchJump (d : Draft) (s : Assembly) (cursor : Nat) (h : cursor < d.size)
    : Option ElementRef × Assembly × Past d cursor :=
  match hjump : d.token? (cursor + 1) with
  | some (.conditionalJump index) =>
    let (jump, s) := s.add d (.jump index false) (cursor + 1)
    (some jump, s, ⟨cursor + 2, by omega, d.lt_size_of_token? hjump⟩)
  | _ => (none, s.report (d.missingBranchJump cursor (cursor + 1)), ⟨cursor + 1, by omega, h⟩)

mutual

/--
Assemble the element at the cursor with all that belongs to it. A start marker makes no element
here. An element that was made ahead is taken as it is.
-/
def element (d : Draft) (s : Assembly) (cursor : Nat) (h : cursor < d.size)
    : Option ElementRef × Assembly × Past d cursor :=
  let next : Past d cursor := ⟨cursor + 1, Nat.lt_succ_self cursor, h⟩
  match s.ahead.lookup cursor with
  | some r => (some r, s, next)
  | none =>
    let single : ElementRef × Assembly → Option ElementRef × Assembly × Past d cursor :=
      fun (r, s) => (some r, s, next)
    match d.lexemes[cursor].token with
    | .start => (none, s, next)
    | .finish => single (s.add d .finish cursor)
    | .operator _ => single (s.add d .operator cursor)
    | .jumpPoint index => single (s.addJumpPoint d index cursor)
    | .conditionalJump index => single (s.add d (.jump index false) cursor)
    | .unconditionalJump index => single (s.add d (.jump index true) cursor)
    | .conditional _ _ =>
      let (vertex, s, next) := conditional d s cursor h
      (some vertex, s, next)
termination_by (d.size - cursor, 1)

def conditional (d : Draft) (s : Assembly) (cursor : Nat) (h : cursor < d.size)
    : ElementRef × Assembly × Past d cursor :=
  let index := s.conditionals + 1
  let (vertex, s) := { s with conditionals := index }.add d (.conditional { index }) cursor
  let (whenTrue, s, ⟨first, hfirst⟩) := branchJump d s cursor h
  let (whenFalse, s, ⟨next, hnext⟩) := branch d s first hfirst.right vertex
  (vertex, { s with automaton := s.automaton.setBranches vertex whenTrue whenFalse },
    ⟨next, by omega⟩)
termination_by (d.size - cursor, 0)

/--
Assemble the branch that `vertex` takes when false, which starts at the cursor, and return its
first element. A branch closes in front of a jump point or an end marker, behind an unconditional
jump and where the scheme ends.
-/
def branch (d : Draft) (s : Assembly) (cursor : Nat) (h : cursor ≤ d.size) (vertex : ElementRef)
    : Option ElementRef × Assembly × Onward d cursor :=
  if (d.token? cursor).all (·.closesBranch) then
    (none, s.report (s.emptyBranch d vertex cursor), ⟨cursor, Nat.le_refl cursor, h⟩)
  else
    branchFrom d s cursor h none none
termination_by (d.size - cursor, 3)

/--
Assemble the rest of a branch. So far its first element is `head`, and control falls through from
`previous` to the cursor.
-/
def branchFrom (d : Draft) (s : Assembly) (cursor : Nat) (h : cursor ≤ d.size)
    (head previous : Option ElementRef) : Option ElementRef × Assembly × Onward d cursor :=
  if hcursor : cursor < d.size then
    let token := d.lexemes[cursor].token
    if token.closesBranch then
      match s.terminator d cursor with
      | (some r, s) => (head, s.linkFrom d previous r, ⟨cursor, Nat.le_refl cursor, h⟩)
      | (none, s) => (head, s, ⟨cursor, Nat.le_refl cursor, h⟩)
    else
      let (r?, s, ⟨next, hnext⟩) := element d s cursor hcursor
      let (head, previous, s) :=
        match r? with
        | some r =>
          let s := s.linkFrom d previous r
          (head.or (some r), s.fallsThrough r, s)
        | none => (head, previous, s)
      if token matches .unconditionalJump _ then
        (head, s, ⟨next, by omega⟩)
      else
        let (head, s, ⟨last, hlast⟩) := branchFrom d s next hnext.right head previous
        (head, s, ⟨last, by omega⟩)
  else
    (head, s, ⟨cursor, Nat.le_refl cursor, h⟩)
termination_by (d.size - cursor, 2)

end

/--
Assemble the elements from the cursor to the end of the scheme, where control falls through from
`previous` to the cursor.
-/
def elements (d : Draft) (s : Assembly) (cursor : Nat) (previous : Option ElementRef)
    : Assembly :=
  if h : cursor < d.size then
    let (r?, s, ⟨next, _⟩) := element d s cursor h
    match r? with
    | some r =>
      let s := s.linkFrom d previous r
      elements d s next (s.fallsThrough r)
    | none => elements d s next previous
  else
    s
termination_by d.size - cursor

/--
Assemble a whole scheme. The start is an element even where its marker is missing.
-/
def ofDraft (d : Draft) : Assembly :=
  let automaton : Automaton :=
    { tokens := d.lexemes.toList.map (·.text), source := d.source }
  let s : Assembly := { automaton := automaton.add ⟨Token.start.text⟩ .start 0 }
  let (s, cursor) :=
    if d.token? 0 = some .start then (s, 1) else (s.report d.missingStart, 0)
  let s := if d.lexemes.any (·.token == .finish) then s else s.report d.missingFinish
  elements d s cursor (some 0)

end Assembly

end LogicalScheme
