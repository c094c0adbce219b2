import LogicalScheme.Automaton
import LogicalScheme.ConditionVector

/-!
This module contains the values of the conditional vertices of an automaton. They are the only part
of it that changes once the automaton is built.
-/

namespace LogicalScheme

namespace Automaton

def conditionals (a : Automaton) : List (ElementRef × Conditional) :=
  a.refs.filterMap fun r => ((a.element? r).bind (·.conditional?)).map (r, ·)

/--
The conditional vertices in the order of their indices. Equal indices keep the order of the arena.
-/
def conditionalRefs (a : Automaton) : List ElementRef :=
  (a.conditionals.mergeSort fun x y => x.2.index ≤ y.2.index).map (·.1)

def conditionalCount (a : Automaton) : Nat :=
  a.elements.countP (·.conditional?.isSome)

def value? (a : Automaton) (r : ElementRef) : Option Bool :=
  ((a.element? r).bind (·.conditional?)).bind (·.value)

def values (a : Automaton) : List (Option Bool) :=
  a.conditionalRefs.map a.value?

/--
A vector fits an automaton if there are as many values as conditional vertices and every vertex
finds a value at its index.
-/
def Fits (a : Automaton) (v : ConditionVector) : Prop :=
  v.length = a.conditionalCount ∧
    ∀ e ∈ a.elements, ∀ c ∈ e.conditional?, (v.get? c.index).isSome

instance (a : Automaton) (v : ConditionVector) : Decidable (a.Fits v) :=
  inferInstanceAs (Decidable (_ ∧ _))

/--
Give every conditional vertex its value from the vector. A vertex whose index has no value there
is left alone.
-/
def assign (a : Automaton) (v : ConditionVector) : Automaton :=
  { a with elements := a.elements.map <| Element.mapConditional fun c =>
      { c with value := (v.get? c.index).or c.value } }

/--
Give every conditional vertex its value from the text of a vector. The text is checked before any
value changes.
-/
def assignText (a : Automaton) (bits : String) : Except UsageError Automaton :=
  (ConditionVector.parse bits a.conditionalCount).map a.assign

def setCondition (a : Automaton) (index : Nat) (value : Bool) : Except UsageError Automaton :=
  match a.elements.findIdx? (·.conditional?.any (·.index == index)) with
  | some r => .ok (a.modify r (.setValue (some value)))
  | none => .error (.unknownConditional index)

def reset (a : Automaton) : Automaton :=
  { a with elements := a.elements.map (.setValue none) }

/--
The element that control goes to from `r`. The target of a jump is the successor of its jump
point, and a conditional vertex needs a value.
-/
def follow (a : Automaton) (r : ElementRef) : Except UsageError (Option ElementRef) :=
  match a.element? r with
  | none => .ok none
  | some e =>
    match e.kind with
    | .start | .operator | .jumpPoint _ => .ok e.next
    | .finish => .ok none
    | .jump index _ => .ok ((a.jumpPoint? index).bind a.next?)
    | .conditional c =>
      match c.value with
      | some b => .ok (c.branch b)
      | none => .error (.undeterminedCondition e.name)

@[simp]
theorem assign_size (a : Automaton) (v : ConditionVector)
    : (a.assign v).elements.size = a.elements.size := by
  simp [assign]

@[simp]
theorem reset_size (a : Automaton) : a.reset.elements.size = a.elements.size := by
  simp [reset]

end Automaton

end LogicalScheme
