import LogicalScheme.Element

/-!
This module contains condition vectors, which give a value to every conditional vertex, and the
errors that arise when an automaton is used in a way that its scheme does not allow.
-/

namespace LogicalScheme

inductive UsageError where
  | vectorLength (expected actual : Nat)
  | vectorCharacter (character : Char) (offset : Nat)
  | undeterminedCondition (name : Name)
  | unknownConditional (index : Nat)
  | tooManyConditionals (count limit : Nat)
  deriving DecidableEq

namespace UsageError

def message : UsageError → String
  | .vectorLength expected actual =>
    s!"condition vector has {actual} characters, expected {expected}"
  | .vectorCharacter character offset =>
    s!"condition vector contains `{character}` at offset {offset}; only `0` and `1` are allowed"
  | .undeterminedCondition name =>
    s!"conditional `{name}` was evaluated before a value was assigned"
  | .unknownConditional index =>
    s!"no conditional vertex with index {index}"
  | .tooManyConditionals count limit =>
    s!"{count} conditional vertices need 2^{count} runs, but at most {limit} may be enumerated"

end UsageError

/--
One value for each conditional vertex, in the order of their indices.
-/
structure ConditionVector where
  bits : List Bool
  deriving DecidableEq

namespace ConditionVector

def bitChar (b : Bool) : Char :=
  if b then '1' else '0'

/--
Read characters that are all `0` or `1`. The first other character is an error, where `offset`
characters came before.
-/
def readBits (offset : Nat) : List Char → Except UsageError (List Bool)
  | [] => .ok []
  | '0' :: cs => (readBits (offset + 1) cs).map (false :: ·)
  | '1' :: cs => (readBits (offset + 1) cs).map (true :: ·)
  | c :: _ => .error (.vectorCharacter c offset)

/--
Read a vector for a scheme with `expected` conditional vertices. The number of characters is
checked before the characters are.
-/
def parse (text : String) (expected : Nat) : Except UsageError ConditionVector :=
  let cs := text.toList
  if cs.length = expected then
    (readBits 0 cs).map ConditionVector.mk
  else
    .error (.vectorLength expected cs.length)

/--
The vector of length `length` that spells the number `mask` in binary, with the most significant
bit first. Vectors grow in lexicographic order with their masks.
-/
def ofMask (mask : UInt64) (length : Nat) : ConditionVector :=
  ⟨(List.range length).map fun bit => mask.toNat.testBit (length - 1 - bit)⟩

def length (v : ConditionVector) : Nat :=
  v.bits.length

def isEmpty (v : ConditionVector) : Bool :=
  v.bits.isEmpty

/--
The value for the conditional vertex with this index. Indices count from 1.
-/
def get? (v : ConditionVector) : Nat → Option Bool
  | 0 => none
  | index + 1 => v.bits[index]?

def text (v : ConditionVector) : String :=
  String.ofList (v.bits.map bitChar)

instance : ToString ConditionVector where
  toString := text

@[simp]
theorem length_ofMask (mask : UInt64) (length : Nat)
    : (ofMask mask length).length = length := by
  simp [ofMask, ConditionVector.length]

end ConditionVector

end LogicalScheme
