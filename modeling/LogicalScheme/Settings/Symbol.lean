/-!
This module contains the symbols of settings files, which are written in TOML. Line ends are line
feeds here: `Symbol.ofText?` takes the pairs of carriage return and line feed for one.
-/

namespace LogicalScheme.Settings

inductive Symbol where
  | squareOpen
  | squareClose
  | braceOpen
  | braceClose
  | comma
  | equals
  | dot
  | newline
  | comment
  /-- A run of spaces and tabs. -/
  | blank (cs : List Char)
  /-- A text on one line. It can be a key. -/
  | quoted (text : String)
  /-- A text in triple quotes. No setting has such a value, so what it says is not kept. -/
  | paragraph
  /-- A run of the characters of bare keys, numbers and dates. -/
  | word (cs : List Char)
  deriving DecidableEq

namespace Symbol

def isSpace (c : Char) : Bool :=
  c == ' ' || c == '\t'

def isTextChar (c : Char) : Bool :=
  c == '\t' || (' ' ≤ c && c != '\x7f')

def isWordChar (c : Char) : Bool :=
  c.isAlphanum || c == '-' || c == '_' || c == '+' || c == ':'

def digit? (base : Nat) (c : Char) : Option Nat :=
  let value :=
    if c.isDigit then c.toNat - '0'.toNat
    else if 'a' ≤ c ∧ c ≤ 'f' then c.toNat - 'a'.toNat + 10
    else if 'A' ≤ c ∧ c ≤ 'F' then c.toNat - 'A'.toNat + 10
    else base
  if value < base then some value else none

def ofDigits (base : Nat) (digits : List Nat) : Nat :=
  digits.foldl (fun n digit => base * n + digit) 0

def hexChar? (cs : List Char) : Option Char := do
  let n := ofDigits 16 (← cs.mapM (digit? 16))
  if n.isValidChar then some (Char.ofNat n) else none

def letterEscape? : Char → Option Char
  | 'b' => some '\x08'
  | 't' => some '\t'
  | 'n' => some '\n'
  | 'f' => some '\x0c'
  | 'r' => some '\r'
  | 'e' => some '\x1b'
  | '"' => some '"'
  | '\\' => some '\\'
  | _ => none

/--
Replace escapes by what they spell. In a text of several `lines` a backslash can stand at the end of
a line.
-/
def unescape (lines : Bool) : List Char → Option (List Char)
  | [] => some []
  | '\\' :: 'x' :: a :: b :: cs => do
    return (← hexChar? [a, b]) :: (← unescape lines cs)
  | '\\' :: 'u' :: a :: b :: c :: d :: cs => do
    return (← hexChar? [a, b, c, d]) :: (← unescape lines cs)
  | '\\' :: 'U' :: a :: b :: c :: d :: e :: f :: g :: h :: cs => do
    return (← hexChar? [a, b, c, d, e, f, g, h]) :: (← unescape lines cs)
  | '\\' :: c :: cs =>
    if lines && ((c :: cs).dropWhile isSpace).head? == some '\n' then
      unescape lines (c :: cs)
    else do
      return (← letterEscape? c) :: (← unescape lines cs)
  | c :: cs => do
    guard (c != '\\' && (isTextChar c || (lines && c == '\n')))
    return c :: (← unescape lines cs)

def closeQuote? (quote : Char) : List Char → Option (List Char × List Char)
  | [] => none
  | c :: cs => if c = quote then some ([], cs) else none

/--
The quotes that close a text in triple quotes. Up to two quotes in front of them are in the text.
-/
def closeTriple? (quote : Char) (cs : List Char) : Option (List Char × List Char) :=
  let count := min (cs.takeWhile (· == quote)).length 5
  if 3 ≤ count then some (List.replicate (count - 3) quote, cs.drop count) else none

/--
Split characters behind a text at the quotes that close it. A character behind a backslash closes
nothing where there are escapes.
-/
def splitText (close? : List Char → Option (List Char × List Char)) (escapes : Bool)
    : List Char → Option (List Char × List Char)
  | [] => none
  | c :: cs =>
    match close? (c :: cs) with
    | some split => some split
    | none =>
      match cs with
      | [] => none
      | d :: cs =>
        if escapes && c == '\\' then do
          let (text, rest) ← splitText close? escapes cs
          return (c :: d :: text, rest)
        else do
          let (text, rest) ← splitText close? escapes (d :: cs)
          return (c :: text, rest)

def withRest (split : Option (List Char × List Char)) (read? : List Char → Option Symbol)
    : Option (Symbol × List Char) :=
  split.bind fun (text, rest) => (read? text).map (·, rest)

def readBasic? (text : List Char) : Option Symbol :=
  (unescape false text).map (.quoted <| String.ofList ·)

def readLiteral? (text : List Char) : Option Symbol :=
  if text.all isTextChar then some (.quoted (String.ofList text)) else none

def readBasicLines? (text : List Char) : Option Symbol :=
  (unescape true text).map fun _ => .paragraph

def readLiteralLines? (text : List Char) : Option Symbol :=
  if text.all (fun c => isTextChar c || c == '\n') then some .paragraph else none

/--
Scan the symbol at the head of a text. Texts in double quotes have escapes.
-/
def scan? : List Char → Option (Symbol × List Char)
  | [] => none
  | '[' :: cs => some (.squareOpen, cs)
  | ']' :: cs => some (.squareClose, cs)
  | '{' :: cs => some (.braceOpen, cs)
  | '}' :: cs => some (.braceClose, cs)
  | ',' :: cs => some (.comma, cs)
  | '=' :: cs => some (.equals, cs)
  | '.' :: cs => some (.dot, cs)
  | '\n' :: cs => some (.newline, cs)
  | '#' :: cs => some (.comment, cs.dropWhile isTextChar)
  | '"' :: '"' :: '"' :: cs => withRest (splitText (closeTriple? '"') true cs) readBasicLines?
  | '"' :: cs => withRest (splitText (closeQuote? '"') true cs) readBasic?
  | '\'' :: '\'' :: '\'' :: cs =>
    withRest (splitText (closeTriple? '\'') false cs) readLiteralLines?
  | '\'' :: cs => withRest (splitText (closeQuote? '\'') false cs) readLiteral?
  | c :: cs =>
    if isSpace c then
      some (.blank (c :: cs.takeWhile isSpace), cs.dropWhile isSpace)
    else if isWordChar c then
      some (.word (c :: cs.takeWhile isWordChar), cs.dropWhile isWordChar)
    else
      none

theorem length_dropWhile_le (p : Char → Bool) (cs : List Char)
    : (cs.dropWhile p).length ≤ cs.length :=
  (List.dropWhile_suffix p).length_le

theorem splitText_rest_length_le {close? : List Char → Option (List Char × List Char)}
    (hclose : ∀ cs split, close? cs = some split → split.2.length ≤ cs.length) {escapes : Bool}
    {cs : List Char} {split : List Char × List Char}
    (h : splitText close? escapes cs = some split) : split.2.length ≤ cs.length := by
  fun_induction splitText close? escapes cs generalizing split with
  | case1 => contradiction
  | case2 c cs close heq =>
    cases h
    exact hclose _ _ heq
  | case3 => contradiction
  | case4 c d cs _ _ ih =>
    obtain ⟨split', h', heq⟩ := Option.bind_eq_some_iff.mp h
    cases heq
    have := ih h'
    simp at this ⊢
    omega
  | case5 c d cs _ _ ih =>
    obtain ⟨split', h', heq⟩ := Option.bind_eq_some_iff.mp h
    cases heq
    have := ih h'
    simp at this ⊢
    omega

theorem closeQuote?_rest_length_le (quote : Char) (cs : List Char) (split : List Char × List Char)
    (h : closeQuote? quote cs = some split) : split.2.length ≤ cs.length := by
  cases cs with
  | nil => contradiction
  | cons c cs =>
    simp only [closeQuote?, Option.ite_none_right_eq_some] at h
    cases h.right
    simp

theorem closeTriple?_rest_length_le (quote : Char) (cs : List Char) (split : List Char × List Char)
    (h : closeTriple? quote cs = some split) : split.2.length ≤ cs.length := by
  simp only [closeTriple?, Option.ite_none_right_eq_some] at h
  cases h.right
  simp

theorem rest_of_withRest {split : Option (List Char × List Char)}
    {read? : List Char → Option Symbol} {s : Symbol} {rest : List Char}
    (h : withRest split read? = some (s, rest)) : ∃ text, split = some (text, rest) := by
  simp only [withRest, Option.bind_eq_some_iff, Option.map_eq_some_iff, Prod.mk.injEq] at h
  obtain ⟨⟨text, rest'⟩, hsplit, _, _, _, rfl⟩ := h
  exact ⟨text, hsplit⟩

theorem scan?_rest_length_lt {cs rest : List Char} {s : Symbol} (h : scan? cs = some (s, rest))
    : rest.length < cs.length := by
  have quoted {close? : List Char → Option (List Char × List Char)}
      (hclose : ∀ cs split, close? cs = some split → split.2.length ≤ cs.length) {escapes : Bool}
      {cs : List Char} {read? : List Char → Option Symbol}
      (h : withRest (splitText close? escapes cs) read? = some (s, rest))
      : rest.length ≤ cs.length := by
    obtain ⟨_, hsplit⟩ := rest_of_withRest h
    exact splitText_rest_length_le hclose hsplit
  unfold scan? at h
  split at h
  case h_1 => contradiction
  case h_10 cs =>
    cases h
    have := length_dropWhile_le isTextChar cs
    simp
    omega
  case h_11 | h_13 =>
    have := quoted (closeTriple?_rest_length_le _) h
    simp
    omega
  case h_12 | h_14 =>
    have := quoted (closeQuote?_rest_length_le _) h
    simp
    omega
  case h_15 c cs _ _ _ _ _ _ _ _ _ _ _ _ _ =>
    have hspace := length_dropWhile_le isSpace cs
    have hword := length_dropWhile_le isWordChar cs
    simp only [List.length_cons]
    split at h
    . cases h
      omega
    . split at h
      . cases h
        omega
      . contradiction
  all_goals
    cases h
    simp

def ofChars? (cs : List Char) : Option (List Symbol) :=
  if cs.isEmpty then
    some []
  else
    match _h : scan? cs with
    | some (s, rest) => (ofChars? rest).map (s :: ·)
    | none => none
termination_by cs.length
decreasing_by exact scan?_rest_length_lt _h

def unifyLineEnds : List Char → List Char
  | '\r' :: '\n' :: cs => '\n' :: unifyLineEnds cs
  | c :: cs => c :: unifyLineEnds cs
  | [] => []

/--
All symbols of a file. A byte order mark in front of them does not count.
-/
def ofText? (text : String) : Option (List Symbol) :=
  let cs := unifyLineEnds text.toList
  ofChars? (if cs.head? = some '\ufeff' then cs.tail else cs)

end Symbol

end LogicalScheme.Settings
