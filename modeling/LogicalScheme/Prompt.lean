import LogicalScheme.Failure
import LogicalScheme.Trace

/-!
This module contains the prompt, which asks a reader for the values of conditions. A line that is no
answer is asked for again.
-/

namespace LogicalScheme

structure Prompt where
  /-- The lines that are still to be read. All but the last end with a line feed. -/
  lines : List (List UInt8)
  /-- All that was written so far. -/
  output : String := ""
  deriving DecidableEq

namespace Prompt

def consByte (b : UInt8) (lines : List (List UInt8)) : List (List UInt8) :=
  if b = 0x0A then
    [b] :: lines
  else
    match lines with
    | [] => [[b]]
    | line :: lines => (b :: line) :: lines

def splitLines (bytes : List UInt8) : List (List UInt8) :=
  bytes.foldr consByte []

def ofBytes (bytes : List UInt8) : Prompt :=
  { lines := splitLines bytes }

/--
The value that a line stands for. Blanks around it and the case of ASCII letters do not matter.
-/
def answer? (line : String) : Option Bool :=
  match String.ofList ((Text.trim line.toList).map Char.toLower) with
  | "1" | "y" | "yes" | "t" | "true" => some true
  | "0" | "n" | "no" | "f" | "false" => some false
  | _ => none

def question (name : Name) : String :=
  s!"{name} = "

def again : String :=
  "expected 0 or 1\n"

/--
Ask for the value of a condition, where `lines` can be read and `output` was written so far. Each
line that is read is used up, also if it is no text.
-/
def askLines (name : Name) (lines : List (List UInt8)) (output : String)
    : Except InputError Bool × Prompt :=
  let output := output ++ question name
  match lines with
  | [] => (.error (.noAnswer name), ⟨[], output⟩)
  | line :: lines =>
    match Text.decode? line with
    | none => (.error .notText, ⟨lines, output⟩)
    | some text =>
      match answer? text with
      | some value => (.ok value, ⟨lines, output⟩)
      | none => askLines name lines (output ++ again)

def ask (p : Prompt) (name : Name) : Except InputError Bool × Prompt :=
  askLines name p.lines p.output

def oracle : Oracle Prompt InputError :=
  fun p e => p.ask e.name

end Prompt

end LogicalScheme
