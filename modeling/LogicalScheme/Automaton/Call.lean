import LogicalScheme.Automaton.Conditions

/-!
This module contains the calls that build an automaton and assign its conditions, as data, so that
histories of calls can be run and reasoned about. A call is admissible if what it refers to is
there.
-/

namespace LogicalScheme

namespace Automaton

inductive Call where
  | add (name : Name) (kind : Kind) (position : Nat)
  | link (source target : ElementRef)
  | register (index : UInt32) (point : ElementRef)
  | setBranches (vertex : ElementRef) (whenTrue whenFalse : Option ElementRef)
  | assign (v : ConditionVector)
  | assignText (bits : String)
  | setCondition (index : Nat) (value : Bool)
  | reset
  deriving DecidableEq

inductive Reply where
  | added (r : ElementRef)
  | done
  | taken (existing : ElementRef)
  | misused (error : UsageError)
  deriving DecidableEq

namespace Call

/--
The source of a link is there, branches are set on conditional vertices, and vectors fit.
-/
def Admissible (a : Automaton) : Call → Prop
  | link source _ => a.Has source
  | setBranches vertex _ _ => ((a.element? vertex).bind (·.conditional?)).isSome
  | assign v => a.Fits v
  | assignText bits =>
    match ConditionVector.parse bits a.conditionalCount with
    | .ok v => a.Fits v
    | .error _ => True
  | _ => True

instance (a : Automaton) (call : Call) : Decidable (call.Admissible a) := by
  unfold Admissible
  cases call <;> dsimp only <;> try infer_instance
  split <;> infer_instance

/--
Perform a call. A call that is refused leaves the automaton as it is.
-/
def perform (a : Automaton) : Call → Reply × Automaton
  | add name kind position => (.added a.elements.size, a.add name kind position)
  | link source target => settle .taken (a.link source target)
  | register index point => settle .taken (a.register index point)
  | setBranches vertex whenTrue whenFalse => (.done, a.setBranches vertex whenTrue whenFalse)
  | assign v => (.done, a.assign v)
  | assignText bits => settle .misused (a.assignText bits)
  | setCondition index value => settle .misused (a.setCondition index value)
  | reset => (.done, a.reset)
where
  settle {ε : Type} (reply : ε → Reply) : Except ε Automaton → Reply × Automaton
    | .ok b => (.done, b)
    | .error e => (reply e, a)

end Call

end Automaton

end LogicalScheme
