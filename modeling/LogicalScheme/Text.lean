/-!
This module contains the character classes of the notation, the normal form of scheme text and
the measure of text in UTF-8 bytes.
-/

namespace LogicalScheme.Text

/--
A blank is a character with the Unicode property `White_Space`.
-/
def isBlank (c : Char) : Bool :=
  let n := c.toNat
  (0x09 ≤ n && n ≤ 0x0D) || n == 0x20 || n == 0x85 || n == 0xA0 || n == 0x1680 ||
  (0x2000 ≤ n && n ≤ 0x200A) || n == 0x2028 || n == 0x2029 || n == 0x202F || n == 0x205F ||
  n == 0x3000

/--
The brackets and bars that group parts of a scheme for the reader. They carry no meaning.
-/
def isGrouping (c : Char) : Bool :=
  c == '(' || c == ')' || c == '|'

/--
The spelling of a letter in normalized text: vertex letters are capital, the mark of an
unconditional jump and the endings of the two markers are small.
-/
def normalizeChar (c : Char) : Char :=
  match c with
  | 'y' => 'Y'
  | 'x' => 'X'
  | 'p' => 'P'
  | 'W' => 'w'
  | 'Н' => 'н'
  | 'К' => 'к'
  | c => c

def words (cs : List Char) : List (List Char) :=
  (cs.splitOnP isBlank).filter (!·.isEmpty)

/--
The normal form of scheme text on characters: grouping is gone, letters have one spelling, and
words are separated by single spaces.
-/
def normalizeChars (cs : List Char) : List Char :=
  [' '].intercalate (words ((cs.filter (!isGrouping ·)).map normalizeChar))

def normalize (text : String) : String :=
  String.ofList (normalizeChars text.toList)

def trim (cs : List Char) : List Char :=
  ((cs.dropWhile isBlank).reverse.dropWhile isBlank).reverse

def decode? (bytes : List UInt8) : Option String :=
  String.fromUTF8? ⟨bytes.toArray⟩

def width : List Char → Nat
  | [] => 0
  | c :: cs => c.utf8Size + width cs

@[simp]
theorem width_nil : width [] = 0 := rfl

@[simp]
theorem width_cons (c : Char) (cs : List Char) : width (c :: cs) = c.utf8Size + width cs := rfl

@[simp]
theorem width_append (as bs : List Char) : width (as ++ bs) = width as + width bs := by
  induction as with
  | nil => simp
  | cons c as ih => simp [ih, Nat.add_assoc]

end LogicalScheme.Text
