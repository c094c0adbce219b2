import LogicalScheme.Span

/-!
This module contains the tokens of the notation and lexemes, which are tokens at their place in
a text.
-/

namespace LogicalScheme

/--
The letter that introduces a conditional vertex. Both letters denote the same kind of vertex.
-/
inductive Letter where
  | x
  | p
  deriving DecidableEq

/--
The words of the notation. Numbers are names: they fit 32 bits and nothing is computed from them.
-/
inductive Token where
  /-- The start marker `Yн`. -/
  | start
  /-- The end marker `Yк`. -/
  | finish
  /-- An operator vertex `Y<n>`. -/
  | operator (number : UInt32)
  /-- A conditional vertex `X<n>` or `P<n>`. -/
  | conditional (letter : Letter) (number : UInt32)
  /-- A jump point `↓<n>`. -/
  | jumpPoint (number : UInt32)
  /-- A conditional jump `↑<n>`. -/
  | conditionalJump (number : UInt32)
  /-- An unconditional jump `w↑<n>`. -/
  | unconditionalJump (number : UInt32)
  deriving DecidableEq

namespace Letter

def char : Letter → Char
  | .x => 'X'
  | .p => 'P'

end Letter

namespace Token

def mark : Token → List Char
  | .start => ['Y', 'н']
  | .finish => ['Y', 'к']
  | .operator _ => ['Y']
  | .conditional letter _ => [letter.char]
  | .jumpPoint _ => ['↓']
  | .conditionalJump _ => ['↑']
  | .unconditionalJump _ => ['w', '↑']

def number? : Token → Option UInt32
  | .start => none
  | .finish => none
  | .operator n => some n
  | .conditional _ n => some n
  | .jumpPoint n => some n
  | .conditionalJump n => some n
  | .unconditionalJump n => some n

/--
The canonical spelling of a token: its number has no leading zeros.
-/
def chars (t : Token) : List Char :=
  match t.number? with
  | none => t.mark
  | some n => t.mark ++ Nat.toDigits 10 n.toNat

def text (t : Token) : String :=
  String.ofList t.chars

instance : ToString Token where
  toString := text

def closesBranch : Token → Bool
  | .finish => true
  | .jumpPoint _ => true
  | _ => false

end Token

structure Lexeme where
  token : Token
  span : Span
  /-- The spelling, which keeps the leading zeros of a number. -/
  text : String
  deriving DecidableEq

end LogicalScheme
