/-!
This module contains the values in settings files and the tables that hold them. A table remembers
how it came about, since that decides what may be added to it later.
-/

namespace LogicalScheme.Settings

inductive Origin where
  /-- It is written in braces. -/
  | inline
  /-- It has a header. -/
  | header
  /-- A longer header leads through it. -/
  | implied
  /-- A dotted key leads through it. -/
  | dotted
  deriving DecidableEq

/--
A value. What floats, dates and texts say is not kept, as no setting is one.
-/
inductive Value where
  | text
  | float
  | date
  | boolean (b : Bool)
  | integer (n : Int)
  /-- A well formed number without a value: it is out of range or has no digits behind its base. -/
  | valueless
  | array (vs : List Value)
  | table (origin : Origin) (entries : List (String × Value))
  /-- The tables under headers in double brackets. The last one is open. -/
  | tables (ts : List (List (String × Value)))

abbrev Entries :=
  List (String × Value)

mutual

def Value.isReadable : Value → Bool
  | .valueless => false
  | .array vs => Value.areReadable vs
  | .table _ es => Entries.areReadable es
  | .tables ts => Entries.allReadable ts
  | _ => true

def Value.areReadable : List Value → Bool
  | [] => true
  | v :: vs => v.isReadable && Value.areReadable vs

def Entries.areReadable : List (String × Value) → Bool
  | [] => true
  | (_, v) :: es => v.isReadable && Entries.areReadable es

def Entries.allReadable : List (List (String × Value)) → Bool
  | [] => true
  | es :: ts => Entries.areReadable es && Entries.allReadable ts

end

namespace Entries

def update (key : String) (f : Option Value → Option Value) : Entries → Option Entries
  | [] => (f none).map fun v => [(key, v)]
  | (k, v) :: es =>
    if k = key then
      (f (some v)).map fun v => (k, v) :: es
    else
      (update key f es).map ((k, v) :: ·)

/--
Change the table at a path below a table of origin `origin`. Tables that are missing on the way are
made, for a dotted key or for a header. No path leads into values or tables in braces, and no dotted
key leads into a table that has its own header. A table that a dotted key leads through belongs to
dotted keys from then on.
-/
def descend (isDotted : Bool) (f : Origin → Entries → Option Entries)
    : List String → Origin → Entries → Option Entries
  | [], origin, es => f origin es
  | key :: path, _, es =>
    es.update key fun
      | none =>
        let made := if isDotted then Origin.dotted else .implied
        (descend isDotted f path made []).map (.table made)
      | some (.table origin es) =>
        if origin = .inline ∨ (isDotted ∧ origin = .header) then
          none
        else
          let origin := if isDotted then .dotted else origin
          (descend isDotted f path origin es).map (.table origin)
      | some (.tables ts) =>
        ts.getLast?.bind fun t =>
          (descend isDotted f path .header t).map fun t => .tables (ts.dropLast ++ [t])
      | some _ => none

/--
Assign a value to a dotted key. The key has to be new, and the table that it is in has to belong to
dotted keys, unless the key has no dots.
-/
def assign (path : List String) (key : String) (v : Value) (es : Entries) : Option Entries :=
  let put (origin : Origin) (es : Entries) : Option Entries :=
    if path ≠ [] ∧ origin ≠ .dotted then
      none
    else
      es.update key fun
        | none => some v
        | some _ => none
  es.descend true put path .header

def openTable (path : List String) (key : String) (es : Entries) : Option Entries :=
  let define (_ : Origin) (es : Entries) : Option Entries :=
    es.update key fun
      | none => some (.table .header [])
      | some (.table .implied es) => some (.table .header es)
      | some _ => none
  es.descend false define path .header

def openTables (path : List String) (key : String) (es : Entries) : Option Entries :=
  let define (_ : Origin) (es : Entries) : Option Entries :=
    es.update key fun
      | none => some (.tables [[]])
      | some (.tables ts) => some (.tables (ts ++ [[]]))
      | some _ => none
  es.descend false define path .header

end Entries

end LogicalScheme.Settings
