/-!
This module contains the elements of a scheme, which are the nodes of its graph.
-/

namespace LogicalScheme

structure Name where
  text : String
  deriving DecidableEq, Inhabited

instance : ToString Name where
  toString := Name.text

/--
An element is referred to by its place in the arena of its automaton.
-/
abbrev ElementRef := Nat

def conditionText : Option Bool → String
  | none => "?"
  | some true => "1"
  | some false => "0"

/--
What a conditional vertex knows: its number among the conditional vertices, counted from 1, its
value and where control goes for either value.
-/
structure Conditional where
  index : Nat
  value : Option Bool := none
  whenTrue : Option ElementRef := none
  whenFalse : Option ElementRef := none
  deriving DecidableEq

namespace Conditional

def isComplete (c : Conditional) : Bool :=
  c.whenTrue.isSome && c.whenFalse.isSome

def branch (c : Conditional) (b : Bool) : Option ElementRef :=
  if b then c.whenTrue else c.whenFalse

end Conditional

/--
The kinds of elements. Jumps and jump points carry the number that pairs them.
-/
inductive Kind where
  | start
  | finish
  | operator
  | conditional (c : Conditional)
  | jumpPoint (index : UInt32)
  | jump (index : UInt32) (unconditional : Bool)
  deriving DecidableEq

namespace Kind

def text : Kind → String
  | .start => "start"
  | .finish => "end"
  | .operator => "operator"
  | .conditional _ => "conditional"
  | .jumpPoint _ => "jump point"
  | .jump _ _ => "jump operator"

/--
Whether control goes on to the successor of an element of this kind. A conditional vertex
branches, a jump goes to its target and the end goes nowhere.
-/
def fallsThrough : Kind → Bool
  | .start => true
  | .operator => true
  | .jumpPoint _ => true
  | .finish => false
  | .conditional _ => false
  | .jump _ _ => false

def conditional? : Kind → Option Conditional
  | .conditional c => some c
  | _ => none

def mapConditional (f : Conditional → Conditional) : Kind → Kind
  | .conditional c => .conditional (f c)
  | kind => kind

end Kind

structure Element where
  name : Name
  kind : Kind
  /-- The index of the token that the element stands for. -/
  position : Nat
  next : Option ElementRef := none
  deriving DecidableEq

namespace Element

def isStart (e : Element) : Bool :=
  e.kind == .start

def isFinish (e : Element) : Bool :=
  e.kind == .finish

def isJumpPoint (e : Element) : Bool :=
  match e.kind with
  | .jumpPoint _ => true
  | _ => false

def conditional? (e : Element) : Option Conditional :=
  e.kind.conditional?

def jumpIndex? (e : Element) : Option UInt32 :=
  match e.kind with
  | .jumpPoint index => some index
  | .jump index _ => some index
  | _ => none

def jumpTarget? (e : Element) : Option UInt32 :=
  match e.kind with
  | .jump index _ => some index
  | _ => none

def description (e : Element) : String :=
  match e.kind with
  | .start => s!"{e.name}: start of algorithm"
  | .finish => s!"{e.name}: end of algorithm"
  | .operator => s!"{e.name}: operator"
  | .conditional c => s!"{e.name}: condition #{c.index} = {conditionText c.value}"
  | .jumpPoint index => s!"{e.name}: jump point {index}"
  | .jump index true => s!"{e.name}: unconditional jump to ↓{index}"
  | .jump index false => s!"{e.name}: conditional jump to ↓{index}"

def mapConditional (f : Conditional → Conditional) (e : Element) : Element :=
  { e with kind := e.kind.mapConditional f }

def setValue (value : Option Bool) (e : Element) : Element :=
  e.mapConditional ({ · with value })

end Element

end LogicalScheme
