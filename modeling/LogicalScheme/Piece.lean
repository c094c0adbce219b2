import LogicalScheme.Diagnostic
import LogicalScheme.Token.Scan

/-!
This module contains the division of text into pieces, which are lexemes and the runs of characters
between them that spell no token.
-/

namespace LogicalScheme

/--
A part of a text that is more than blanks.
-/
inductive Piece where
  | lexeme (lexeme : Lexeme)
  | unrecognized (span : Span)
  deriving DecidableEq

namespace Piece

/--
How the lexer goes on where no token can be scanned: the characters that are lost without a report,
the run that is reported and the text behind it.
-/
structure Recovery where
  lost : List Char
  run : List Char
  rest : List Char

/--
The characters in front of the next blank, the next token or the end of the text.
-/
def upToNext : List Char → List Char
  | [] => []
  | c :: cs =>
    if Text.isBlank c || (Token.scan? (c :: cs)).isSome then [] else c :: upToNext cs

/--
Recover where no token can be scanned. The letter of an operator is taken before its number is
found to be missing, so a leading `Y` is lost. The run has the character behind it whatever that is.
-/
def recover : List Char → Recovery
  | 'Y' :: c :: cs => ⟨['Y'], c :: upToNext cs, cs.drop (upToNext cs).length⟩
  | ['Y'] => ⟨['Y'], [], []⟩
  | c :: cs => ⟨[], c :: upToNext cs, cs.drop (upToNext cs).length⟩
  | [] => ⟨[], [], []⟩

theorem upToNext_append_drop (cs : List Char)
    : upToNext cs ++ cs.drop (upToNext cs).length = cs := by
  induction cs with
  | nil => rfl
  | cons c cs ih =>
    unfold upToNext
    split
    . rfl
    . simp [ih]

theorem recover_append (cs : List Char)
    : (recover cs).lost ++ (recover cs).run ++ (recover cs).rest = cs := by
  unfold recover
  split <;> simp [upToNext_append_drop]

theorem recover_rest_length_lt (c : Char) (cs : List Char)
    : (recover (c :: cs)).rest.length < (c :: cs).length := by
  unfold recover
  split
  all_goals simp_all
  all_goals omega

/--
The pieces of the text `cs`, which starts `offset` bytes into the whole text.
-/
def split (offset : Nat) (cs : List Char) : List Piece :=
  match cs with
  | [] => []
  | c :: cs =>
    if Text.isBlank c then
      split (offset + c.utf8Size) cs
    else
      match _h : Token.scan? (c :: cs) with
      | some m =>
        let stop := offset + Text.width m.text
        lexeme ⟨m.token, ⟨offset, stop⟩, String.ofList m.text⟩ :: split stop m.rest
      | none =>
        let r := recover (c :: cs)
        let start := offset + Text.width r.lost
        let stop := start + Text.width r.run
        unrecognized ⟨start, stop⟩ :: split stop r.rest
termination_by cs.length
decreasing_by
  . simp
  . exact Token.scan?_rest_length_lt _h
  . exact recover_rest_length_lt c cs

def ofText (text : String) : List Piece :=
  split 0 text.toList

def lexemes (pieces : List Piece) : List Lexeme :=
  pieces.filterMap fun
    | lexeme l => some l
    | unrecognized _ => none

theorem mem_of_mem_lexemes {pieces : List Piece} {l : Lexeme} (h : l ∈ lexemes pieces)
    : lexeme l ∈ pieces := by
  obtain ⟨piece, hmem, hpiece⟩ := List.mem_filterMap.mp h
  cases piece with
  | lexeme l' =>
    cases hpiece
    exact hmem
  | unrecognized span => contradiction

def unrecognizedAt (position : Nat) (span : Span) : Diagnostic :=
  { severity := .error
    message := "unrecognized token"
    code := some .unrecognizedToken
    position := some position
    labels := [.mark span Code.unrecognizedToken.description]
    help := some "expected one of `Yн`, `Yк`, `Y<n>`, `X<n>`, `P<n>`, `↑<n>`, `w↑<n>`, `↓<n>`" }

def diagnostics (position : Nat) : List Piece → List Diagnostic
  | [] => []
  | lexeme _ :: pieces => diagnostics (position + 1) pieces
  | unrecognized span :: pieces => unrecognizedAt position span :: diagnostics position pieces

end Piece

/--
The lexemes of a text that has nothing but lexemes and blanks.
-/
def tokenize (text : String) : Except Malformed (List Lexeme) :=
  let pieces := Piece.ofText text
  match Piece.diagnostics 0 pieces with
  | [] => .ok (Piece.lexemes pieces)
  | ds => .error (Malformed.ofDiagnostics ds)

end LogicalScheme
