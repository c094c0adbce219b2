import LogicalScheme.Element

/-!
This module contains automata. An automaton keeps the elements of a scheme in an arena that only
grows, so a reference stays good once it is handed out. Successors and jump points are written once:
later attempts report what is there and change nothing.
-/

namespace LogicalScheme

structure Automaton where
  /-- The tokens of the scheme as they are written. -/
  tokens : List String
  /-- The normalized text of the scheme. -/
  source : String
  elements : Array Element := #[]
  /-- The jump points by their numbers, in the order of their declarations. -/
  jumpPoints : List (UInt32 × ElementRef) := []
  deriving DecidableEq

namespace Automaton

def Has (a : Automaton) (r : ElementRef) : Prop :=
  r < a.elements.size

instance (a : Automaton) (r : ElementRef) : Decidable (a.Has r) :=
  inferInstanceAs (Decidable (r < a.elements.size))

def element? (a : Automaton) (r : ElementRef) : Option Element :=
  a.elements[r]?

def next? (a : Automaton) (r : ElementRef) : Option ElementRef :=
  (a.element? r).bind (·.next)

def name (a : Automaton) (r : ElementRef) : Name :=
  ((a.element? r).map (·.name)).getD ⟨""⟩

def position (a : Automaton) (r : ElementRef) : Nat :=
  ((a.element? r).map (·.position)).getD 0

def refs (a : Automaton) : List ElementRef :=
  List.range a.elements.size

def jumpPoint? (a : Automaton) (index : UInt32) : Option ElementRef :=
  a.jumpPoints.lookup index

def start? (a : Automaton) : Option ElementRef :=
  a.elements.findIdx? (·.isStart)

def finish? (a : Automaton) : Option ElementRef :=
  a.elements.findIdx? (·.isFinish)

def elementAt? (a : Automaton) (position : Nat) : Option ElementRef :=
  a.elements.findIdx? (·.position == position)

/--
Add an element without successor. Its reference is the size of the arena so far.
-/
def add (a : Automaton) (name : Name) (kind : Kind) (position : Nat) : Automaton :=
  { a with elements := a.elements.push { name, kind, position } }

def modify (a : Automaton) (r : ElementRef) (f : Element → Element) : Automaton :=
  { a with elements := a.elements.modify r f }

/--
Make `target` the successor of `source`. A successor that is there already stays and is reported if
it is another one.
-/
def link (a : Automaton) (source target : ElementRef) : Except ElementRef Automaton :=
  match a.next? source with
  | some existing => if existing = target then .ok a else .error existing
  | none => .ok (a.modify source ({ · with next := some target }))

/--
Declare `point` as the jump point of number `index`. A declaration that is there already stays and
is reported.
-/
def register (a : Automaton) (index : UInt32) (point : ElementRef)
    : Except ElementRef Automaton :=
  match a.jumpPoint? index with
  | some existing => .error existing
  | none => .ok { a with jumpPoints := a.jumpPoints ++ [(index, point)] }

/--
Set the branches of a conditional vertex. A branch that is not given stays as it is.
-/
def setBranches (a : Automaton) (vertex : ElementRef) (whenTrue whenFalse : Option ElementRef)
    : Automaton :=
  a.modify vertex <| Element.mapConditional fun c =>
    { c with whenTrue := whenTrue.or c.whenTrue, whenFalse := whenFalse.or c.whenFalse }

@[simp]
theorem add_size (a : Automaton) (name : Name) (kind : Kind) (position : Nat)
    : (a.add name kind position).elements.size = a.elements.size + 1 := by
  simp [add]

@[simp]
theorem modify_size (a : Automaton) (r : ElementRef) (f : Element → Element)
    : (a.modify r f).elements.size = a.elements.size := by
  simp [modify]

@[simp]
theorem setBranches_size (a : Automaton) (vertex : ElementRef)
    (whenTrue whenFalse : Option ElementRef)
    : (a.setBranches vertex whenTrue whenFalse).elements.size = a.elements.size := by
  simp [setBranches]

theorem link_size {a b : Automaton} {source target : ElementRef}
    (h : a.link source target = .ok b) : b.elements.size = a.elements.size := by
  unfold link at h
  split at h
  . split at h <;> cases h
    rfl
  . cases h
    simp

theorem register_elements {a b : Automaton} {index : UInt32} {point : ElementRef}
    (h : a.register index point = .ok b) : b.elements = a.elements := by
  unfold register at h
  split at h <;> cases h
  rfl

end Automaton

end LogicalScheme
