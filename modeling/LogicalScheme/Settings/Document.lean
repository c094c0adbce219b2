import LogicalScheme.Settings.Scalar

/-!
This module contains the reading of settings files from symbols to the table of a whole file.
-/

namespace LogicalScheme.Settings

namespace Document

abbrev Rest (ss : List Symbol) :=
  { rest : List Symbol // rest.length < ss.length }

def isBlank : Symbol → Bool
  | .blank _ => true
  | _ => false

/--
The symbols that may stand between the parts of a value that goes over several lines.
-/
def isFiller : Symbol → Bool
  | .blank _ | .comment | .newline => true
  | _ => false

def skip (p : Symbol → Bool) (ss : List Symbol)
    : { rest : List Symbol // rest.length ≤ ss.length } :=
  ⟨ss.dropWhile p, (List.dropWhile_suffix p).length_le⟩

def isKeyChar (c : Char) : Bool :=
  c.isAlphanum || c == '-' || c == '_'

def key? (ss : List Symbol) : Option (String × Rest ss) :=
  match ss with
  | .word cs :: ss =>
    let ⟨rest, h⟩ := skip isBlank ss
    if cs.all isKeyChar then
      some (String.ofList cs, ⟨rest, Nat.lt_succ_of_le h⟩)
    else
      none
  | .quoted text :: ss =>
    let ⟨rest, h⟩ := skip isBlank ss
    some (text, ⟨rest, Nat.lt_succ_of_le h⟩)
  | _ => none

/--
How deep values nest in each other, and how many keys a dotted key has, at most.
-/
def depthLimit : Nat :=
  80

/--
The keys of a dotted key: those in front of the last dot and the last one. Blanks in front of it are
skipped.
-/
def keys? (ss : List Symbol) : Option ((List String × String) × Rest ss) := do
  let ⟨start, hstart⟩ := skip isBlank ss
  let (key, ⟨rest, hrest⟩) ← key? start
  match hdot : rest with
  | .dot :: behind =>
    let ((path, last), ⟨rest, _⟩) ← keys? behind
    return ((key :: path, last), ⟨rest, by grind⟩)
  | _ => return (([], key), ⟨rest, by grind⟩)
termination_by ss.length
decreasing_by grind

def path? (ss : List Symbol) : Option ((List String × String) × Rest ss) :=
  (keys? ss).filter fun ((path, _), _) => path.length < depthLimit

def isBare : Symbol → Bool
  | .word _ | .dot => true
  | _ => false

def bareChars : Symbol → List Char
  | .word cs => cs
  | .dot => ['.']
  | _ => []

def bareRun (ss : List Symbol) : List Char × { rest : List Symbol // rest.length ≤ ss.length } :=
  ((ss.takeWhile isBare).flatMap bareChars, skip isBare ss)

def scalar? (ss : List Symbol) : Option (Value × Rest ss) :=
  match ss with
  | .word cs :: ss =>
    let (cs', ⟨rest, h⟩) := bareRun ss
    let text := cs ++ cs'
    let plain := (Value.ofScalar? text).map fun v => (v, ⟨rest, Nat.lt_succ_of_le h⟩)
    match rest, h with
    | .blank [' '] :: .word time :: behind, h =>
      if Scalar.isDay text && time.head?.any Char.isDigit then
        let (time', ⟨rest, h'⟩) := bareRun behind
        (Value.ofScalar? (text ++ ' ' :: time ++ time')).map fun v =>
          (v, ⟨rest, Nat.lt_succ_of_le <| Nat.le_trans h' <|
            Nat.le_trans (Nat.le_add_right _ 2) h⟩)
      else
        plain
    | _, _ => plain
  | _ => none

mutual

/--
A value with the symbols behind it. At most `levels` arrays and tables in braces may open in each
other.
-/
def value? (levels : Nat) (ss : List Symbol) : Option (Value × Rest ss) :=
  match ss with
  | .quoted _ :: ss => some (.text, ⟨ss, Nat.lt_succ_self _⟩)
  | .paragraph :: ss => some (.text, ⟨ss, Nat.lt_succ_self _⟩)
  | .squareOpen :: ss =>
    if levels = 0 then
      none
    else do
      let (vs, ⟨rest, _⟩) ← items? (levels - 1) ss
      return (.array vs, ⟨rest, by grind⟩)
  | .braceOpen :: ss =>
    if levels = 0 then
      none
    else do
      let (es, ⟨rest, _⟩) ← fields? (levels - 1) [] ss
      return (.table .inline es, ⟨rest, by grind⟩)
  | ss => scalar? ss
termination_by 3 * ss.length
decreasing_by all_goals grind

def items? (levels : Nat) (ss : List Symbol) : Option (List Value × Rest ss) :=
  let ⟨start, _⟩ := skip isFiller ss
  match _h : start with
  | .squareClose :: rest => some ([], ⟨rest, by grind⟩)
  | _ => do
    let (v, ⟨rest, _⟩) ← value? levels start
    let ⟨rest, _⟩ := skip isFiller rest
    match _h : rest with
    | .comma :: rest =>
      let (vs, ⟨rest, _⟩) ← items? levels rest
      return (v :: vs, ⟨rest, by grind⟩)
    | .squareClose :: rest => return ([v], ⟨rest, by grind⟩)
    | _ => none
termination_by 3 * ss.length + 1
decreasing_by all_goals grind

/--
The entries of a table in braces, where `es` came before. There may be a comma behind the last, and
an entry may go over several lines.
-/
def fields? (levels : Nat) (es : Entries) (ss : List Symbol) : Option (Entries × Rest ss) :=
  let ⟨start, _⟩ := skip isFiller ss
  match _h : start with
  | .braceClose :: rest => some (es, ⟨rest, by grind⟩)
  | _ => do
    let ((path, key), v, ⟨rest, _⟩) ← entry? isFiller levels start
    let es ← es.assign path key v
    let ⟨rest, _⟩ := skip isFiller rest
    match _h : rest with
    | .comma :: rest =>
      let (es, ⟨rest, _⟩) ← fields? levels es rest
      return (es, ⟨rest, by grind⟩)
    | .braceClose :: rest => return (es, ⟨rest, by grind⟩)
    | _ => none
termination_by 3 * ss.length + 2
decreasing_by all_goals grind

def entry? (gap : Symbol → Bool) (levels : Nat) (ss : List Symbol)
    : Option ((List String × String) × Value × Rest ss) := do
  let (path, ⟨rest, _⟩) ← path? ss
  let ⟨rest, _⟩ := skip gap rest
  match _h : rest with
  | .equals :: rest =>
    let ⟨start, _⟩ := skip gap rest
    let (v, ⟨rest, _⟩) ← value? levels start
    return (path, v, ⟨rest, by grind⟩)
  | _ => none
termination_by 3 * ss.length + 1
decreasing_by all_goals grind

end

def endLine? (ss : List Symbol) : Option { rest : List Symbol // rest.length ≤ ss.length } :=
  let ⟨rest, _⟩ := skip (fun s => isBlank s || s == .comment) ss
  match _h : rest with
  | [] => some ⟨[], Nat.zero_le _⟩
  | .newline :: rest => some ⟨rest, by grind⟩
  | _ => none

inductive Statement where
  /-- A header in brackets. -/
  | openTable (path : List String) (key : String)
  /-- A header in double brackets. -/
  | openTables (path : List String) (key : String)
  | assign (path : List String) (key : String) (v : Value)

def statement? (ss : List Symbol) : Option (Statement × Rest ss) :=
  match ss with
  | .squareOpen :: .squareOpen :: start => do
    let ((path, key), ⟨rest, _⟩) ← path? start
    match _h : rest with
    | .squareClose :: .squareClose :: rest => return (.openTables path key, ⟨rest, by grind⟩)
    | _ => none
  | .squareOpen :: start => do
    let ((path, key), ⟨rest, _⟩) ← path? start
    match _h : rest with
    | .squareClose :: rest => return (.openTable path key, ⟨rest, by grind⟩)
    | _ => none
  | ss => do
    let ((path, key), v, rest) ← entry? isBlank depthLimit ss
    return (.assign path key v, rest)

def statements? (ss : List Symbol) : Option (List Statement) :=
  let ⟨start, _⟩ := skip isFiller ss
  if start.isEmpty then
    some []
  else do
    let (statement, ⟨rest, _⟩) ← statement? start
    let ⟨rest, _⟩ ← endLine? rest
    return statement :: (← statements? rest)
termination_by ss.length
decreasing_by grind

def Statement.apply : Entries × List String → Statement → Option (Entries × List String)
  | (root, _), .openTable path key => (root.openTable path key).map (·, path ++ [key])
  | (root, _), .openTables path key => (root.openTables path key).map (·, path ++ [key])
  | (root, opened), .assign path key v =>
    (root.descend false (fun _ es => es.assign path key v) opened .header).map (·, opened)

def ofText? (text : String) : Option Entries := do
  let statements ← statements? (← Symbol.ofText? text)
  let (root, _) ← statements.foldlM Statement.apply ([], [])
  return root

end Document

end LogicalScheme.Settings
