import LogicalScheme.Scheme.Listing

/-!
This module contains the operations of a scheme as data, each with the type of its result, so that histories
of operations can be run and reasoned about.
-/

namespace LogicalScheme

namespace Scheme

inductive Operation : Type → Type 1 where
  | run (verbose : Bool) : Operation (Except UsageError Trace)
  | runWith (bits : String) (verbose : Bool) : Operation (Except UsageError Trace)
  | runAsking {σ ε : Type} (oracle : Oracle σ ε) (verbose : Bool) (state : σ)
      : Operation (Except (Interruption ε) Trace × σ)
  | reset : Operation Unit
  | loopsUnder (bits : String) : Operation (Except UsageError (List Loop))
  | findLoops : Operation (Except UsageError LoopReport)
  | forEachVector {σ : Type} (visit : σ → ConditionVector → Trace → ForInStep σ) (state : σ)
      : Operation (Except UsageError Nat × σ)
  | listTokens : Operation String
  | listLoops : Operation (Except UsageError String)
  | listResults : Operation (Except UsageError String)
  | matrix {β : Type} (build : SchemeView → β) : Operation β
  | unreachable : Operation (List ElementRef)

namespace Operation

/--
Perform an operation. The result has the last state of an oracle or a visitor in it.
-/
def perform {β : Type} (s : Scheme) : Operation β → β × Scheme
  | run verbose => (s.run verbose, s)
  | runWith bits verbose => s.runWith bits verbose
  | runAsking oracle verbose state =>
    let (result, s, state) := s.runAsking oracle verbose state
    ((result, state), s)
  | reset => ((), s.reset)
  | loopsUnder bits => s.loopsUnder bits
  | findLoops => s.findLoops
  | forEachVector visit state =>
    let (result, s, state) := s.forEachVector visit state
    ((result, state), s)
  | listTokens => (s.listTokens, s)
  | listLoops => s.listLoops
  | listResults => s.listResults
  | matrix build => s.matrix build
  | unreachable => (s.unreachable, s)

def readsValues {β : Type} : Operation β → Bool
  | run _ => true
  | _ => false

end Operation

def after (s : Scheme) : List (Σ β, Operation β) → Scheme
  | [] => s
  | ⟨_, operation⟩ :: history => after (operation.perform s).2 history

end Scheme

end LogicalScheme
