import LogicalScheme.Automaton.Conditions
import LogicalScheme.Automaton.Transition

/-!
This module contains runs of an automaton and their traces. A run starts at the start element and
follows control until it reaches the end, gets stuck or comes to an element that it has seen. Under
fixed conditions a run that comes back would go round for ever.
-/

namespace LogicalScheme

inductive Outcome where
  | completed
  | loopDetected
  | deadEnd
  deriving DecidableEq

def Outcome.text : Outcome → String
  | .completed => "completed"
  | .loopDetected => "loop detected"
  | .deadEnd => "dead end"

instance : ToString Outcome where
  toString := Outcome.text

/--
The record of a run. An element that a run came back to is also the last on the path.
-/
structure Trace where
  path : List ElementRef := []
  /-- A text for each element on the path, made when the run came there. -/
  steps : List String := []
  verbose : Bool
  outcome : Outcome
  deriving DecidableEq

namespace Trace

def text (t : Trace) : String :=
  (if t.verbose then "\n" else " ").intercalate t.steps

instance : ToString Trace where
  toString := text

def arrive (a : Automaton) (r : ElementRef) (t : Trace) : Trace :=
  let step :=
    match a.element? r with
    | some e => if t.verbose then e.description else e.name.text
    | none => ""
  { t with path := r :: t.path, steps := step :: t.steps }

end Trace

/--
Something that decides conditions while a run is under way. It has a state and may fail.
-/
abbrev Oracle (σ ε : Type) :=
  σ → Element → Except ε Bool × σ

inductive Interruption (ε : Type) where
  | oracle (error : ε)
  | usage (error : UsageError)
  deriving DecidableEq

namespace Automaton

theorem has_of_follow {a : Automaton} {r s : ElementRef} (h : a.follow r = .ok (some s))
    : a.Has r := by
  unfold follow element? at h
  split at h
  . simp at h
  . next hr => exact (Array.getElem?_eq_some_iff.mp hr).choose

theorem setCondition_size {a b : Automaton} {index : Nat} {value : Bool}
    (h : a.setCondition index value = .ok b) : b.elements.size = a.elements.size := by
  unfold setCondition at h
  split at h <;> cases h
  simp

/--
Run on from `r`, where the elements in `seen` came before.
-/
def runFrom (a : Automaton) (verbose : Bool) (seen : List ElementRef) (r : ElementRef)
    : Except UsageError Trace :=
  if _hseen : r ∈ seen then
    .ok (Trace.arrive a r { verbose, outcome := .loopDetected })
  else if (a.element? r).any (·.isFinish) then
    .ok (Trace.arrive a r { verbose, outcome := .completed })
  else
    match _hfollow : a.follow r with
    | .error e => .error e
    | .ok none => .ok (Trace.arrive a r { verbose, outcome := .deadEnd })
    | .ok (some next) => (runFrom a verbose (r :: seen) next).map (Trace.arrive a r)
termination_by a.unseen seen
decreasing_by exact unseen_cons_lt (has_of_follow _hfollow) _hseen

def run (a : Automaton) (verbose : Bool) : Except UsageError Trace :=
  match a.start? with
  | some start => a.runFrom verbose [] start
  | none => .ok { verbose, outcome := .deadEnd }

def ask {σ ε : Type} (oracle : Oracle σ ε) (a : Automaton) (state : σ) (r : ElementRef)
    : Except (Interruption ε) Automaton × σ :=
  match a.element? r with
  | some e =>
    match e.conditional? with
    | some { index, value := none, .. } =>
      match oracle state e with
      | (.ok value, state) => ((a.setCondition index value).mapError .usage, state)
      | (.error error, state) => (.error (.oracle error), state)
    | _ => (.ok a, state)
  | none => (.ok a, state)

theorem ask_size {σ ε : Type} {oracle : Oracle σ ε} {a b : Automaton} {state state' : σ}
    {r : ElementRef} (h : ask oracle a state r = (.ok b, state'))
    : b.elements.size = a.elements.size := by
  unfold ask at h
  split at h
  . split at h
    . split at h
      . next index _ _ _ _ value _ _ =>
        generalize hset : a.setCondition index value = result at h
        cases result with
        | ok c =>
          cases h
          exact setCondition_size hset
        | error e => cases h
      . simp at h
    . cases h
      rfl
  . cases h
    rfl

/--
Run on from `r` as `runFrom` does, but ask for the values of conditions that have none.
-/
def runAskingFrom {σ ε : Type} (oracle : Oracle σ ε) (verbose : Bool) (a : Automaton) (state : σ)
    (seen : List ElementRef) (r : ElementRef)
    : Except (Interruption ε) Trace × Automaton × σ :=
  if _hseen : r ∈ seen then
    (.ok (Trace.arrive a r { verbose, outcome := .loopDetected }), a, state)
  else if (a.element? r).any (·.isFinish) then
    (.ok (Trace.arrive a r { verbose, outcome := .completed }), a, state)
  else
    match _hask : ask oracle a state r with
    | (.error e, state) => (.error e, a, state)
    | (.ok b, state) =>
      match _hfollow : b.follow r with
      | .error e => (.error (.usage e), b, state)
      | .ok none => (.ok (Trace.arrive a r { verbose, outcome := .deadEnd }), b, state)
      | .ok (some next) =>
        let (result, c, state) := runAskingFrom oracle verbose b state (r :: seen) next
        (result.map (Trace.arrive a r), c, state)
termination_by a.unseen seen
decreasing_by
  rw [← unseen_congr (ask_size _hask)]
  exact unseen_cons_lt (has_of_follow _hfollow) _hseen

def runAsking {σ ε : Type} (oracle : Oracle σ ε) (verbose : Bool) (a : Automaton) (state : σ)
    : Except (Interruption ε) Trace × Automaton × σ :=
  let a := a.reset
  match a.start? with
  | some start => runAskingFrom oracle verbose a state [] start
  | none => (.ok { verbose, outcome := .deadEnd }, a, state)

end Automaton

end LogicalScheme
