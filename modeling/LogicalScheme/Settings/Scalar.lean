import LogicalScheme.Settings.Symbol
import LogicalScheme.Settings.Value

/-!
This module contains the scalars that are written without quotes: numbers, truth values and dates.
-/

namespace LogicalScheme.Settings

namespace Scalar

/--
Digits with single underscores between some of them.
-/
def digits? (base : Nat) (cs : List Char) : Option (List Nat) :=
  let groups := cs.splitOn '_'
  if groups.any (·.isEmpty) then none else groups.flatten.mapM (Symbol.digit? base)

def wholeDigits? (cs : List Char) : Option (List Nat) :=
  (digits? 10 cs).filter fun digits => digits.length == 1 || digits.head? != some 0

def splitSign : List Char → Bool × List Char
  | '-' :: cs => (true, cs)
  | '+' :: cs => (false, cs)
  | cs => (false, cs)

def applySign (negative : Bool) (n : Nat) : Int :=
  if negative then -n else n

/--
Integers fit 128 bits, with or without a sign.
-/
def isInRange (n : Int) : Bool :=
  match n with
  | .ofNat n => n < Nat.pow 2 128
  | .negSucc n => n < Nat.pow 2 127

def ofInt (n : Int) : Value :=
  if isInRange n then .integer n else .valueless

/--
The number that the digits behind the mark of a base spell. It is well formed even without digits.
-/
def ofBase? (base : Nat) (cs : List Char) : Option Value :=
  if cs.isEmpty then
    some .valueless
  else
    (digits? base cs).map fun digits => ofInt (Symbol.ofDigits base digits)

def integer? : List Char → Option Value
  | '0' :: 'x' :: cs => ofBase? 16 cs
  | '0' :: 'o' :: cs => ofBase? 8 cs
  | '0' :: 'b' :: cs => ofBase? 2 cs
  | cs =>
    let (negative, cs) := splitSign cs
    (wholeDigits? cs).map fun digits => ofInt (applySign negative (Symbol.ofDigits 10 digits))

def cut (isMark : Char → Bool) (cs : List Char) : List Char × Option (List Char) :=
  (cs.takeWhile (!isMark ·), (cs.dropWhile (!isMark ·)).tail?)

/--
The decimal number with these digits in front of a power of ten rounds to a finite float: it is
less than the middle between the largest finite float and the next power of two.
-/
def isFinite (digits : List Nat) (exponent : Int) : Bool :=
  let digits := digits.dropWhile (· == 0)
  let magnitude := digits.length + exponent
  let bound := Nat.pow 2 1024 - Nat.pow 2 970
  if digits.isEmpty || magnitude < 309 then
    true
  else if magnitude > 309 then
    false
  else
    Symbol.ofDigits 10 digits * Nat.pow 10 exponent.toNat < bound * Nat.pow 10 (-exponent).toNat

def decimal? (cs : List Char) : Option Value :=
  let (mantissa, exponent?) := cut (fun c => c == 'e' || c == 'E') (splitSign cs).2
  let (whole, fraction?) := cut (· == '.') mantissa
  if fraction?.isNone && exponent?.isNone then
    none
  else do
    let whole ← wholeDigits? whole
    let fraction ← (fraction?.map (digits? 10)).getD (some [])
    let exponent ← (exponent?.map fun cs =>
      let (negative, cs) := splitSign cs
      (digits? 10 cs).map (applySign negative <| Symbol.ofDigits 10 ·)).getD (some 0)
    return if isFinite (whole ++ fraction) (exponent - fraction.length) then .float else .valueless

def float? (cs : List Char) : Option Value :=
  let special := (splitSign cs).2
  if special == ['i', 'n', 'f'] || special == ['n', 'a', 'n'] then some .float else decimal? cs

def field? (least most : Nat) (cs : List Char) : Option Nat := do
  let n := Symbol.ofDigits 10 (← cs.mapM (Symbol.digit? 10))
  if least ≤ n ∧ n ≤ most then some n else none

def isLeapYear (year : Nat) : Bool :=
  year % 4 == 0 && (year % 100 != 0 || year % 400 == 0)

def daysIn (year month : Nat) : Nat :=
  if month = 2 then
    if isLeapYear year then 29 else 28
  else if month = 4 ∨ month = 6 ∨ month = 9 ∨ month = 11 then
    30
  else
    31

def afterDay? : List Char → Option (List Char)
  | y :: y' :: y'' :: y''' :: '-' :: m :: m' :: '-' :: d :: d' :: cs => do
    let year ← field? 0 9999 [y, y', y'', y''']
    let month ← field? 1 12 [m, m']
    let _ ← field? 1 (daysIn year month) [d, d']
    return cs
  | _ => none

def afterMinutes? : List Char → Option (List Char)
  | h :: h' :: ':' :: m :: m' :: cs => do
    let _ ← field? 0 23 [h, h']
    let _ ← field? 0 59 [m, m']
    return cs
  | _ => none

def afterSeconds? : List Char → Option (List Char)
  | ':' :: s :: s' :: cs => do
    let _ ← field? 0 60 [s, s']
    match cs with
    | '.' :: cs =>
      if (cs.takeWhile Char.isDigit).isEmpty then none else some (cs.dropWhile Char.isDigit)
    | cs => some cs
  | cs => some cs

def isOffset : List Char → Bool
  | [] => true
  | ['Z'] => true
  | ['z'] => true
  | '+' :: cs => afterMinutes? cs == some []
  | '-' :: cs => afterMinutes? cs == some []
  | _ => false

def isDay (cs : List Char) : Bool :=
  afterDay? cs == some []

/--
A day, a time of the day, or a day with a time that can have an offset.
-/
def isDate (cs : List Char) : Bool :=
  match afterDay? cs with
  | some [] => true
  | some (c :: cs) =>
    (c == 'T' || c == 't' || c == ' ') && ((afterMinutes? cs).bind afterSeconds?).any isOffset
  | none => (afterMinutes? cs).bind afterSeconds? == some []

def date? (cs : List Char) : Option Value :=
  if isDate cs then some .date else none

end Scalar

def Value.ofScalar? (cs : List Char) : Option Value :=
  match String.ofList cs with
  | "true" => some (.boolean true)
  | "false" => some (.boolean false)
  | _ => (Scalar.integer? cs).or <| (Scalar.float? cs).or <| Scalar.date? cs

end LogicalScheme.Settings
