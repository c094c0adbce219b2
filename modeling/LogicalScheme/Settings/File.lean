import LogicalScheme.Settings
import LogicalScheme.Settings.Document

/-!
This module contains the settings that a file gives. What the file says beyond them is ignored, but
it has to be well formed.
-/

namespace LogicalScheme.Settings

abbrev Section :=
  Nat → String → Option Value

/--
A section is a table with the keys of its settings, or an array with the settings at their places. A
table is read as a whole, but an array only as far as there are settings. A date passes for a table
that gives nothing.
-/
def section? (root : Entries) (name : String) : Option Section :=
  match root.lookup name with
  | none => some fun _ _ => none
  | some (.table origin es) =>
    if (Value.table origin es).isReadable then some fun _ key => es.lookup key else none
  | some (.array vs) => some fun place _ => vs[place]?
  | some (.tables ts) => some fun place _ => ts[place]?.map (.table .header)
  | some .date => some fun _ _ => none
  | some _ => none

def flag? (default : Bool) : Option Value → Option Bool
  | none => some default
  | some (.boolean b) => some b
  | some _ => none

def count? (default : Nat) : Option Value → Option Nat
  | none => some default
  | some (.integer n) => if 0 ≤ n ∧ n.toNat < UInt64.size then some n.toNat else none
  | some _ => none

def othersReadable (root : Entries) : Bool :=
  root.all fun (name, v) => name == "analysis" || name == "output" || v.isReadable

def ofText? (text : String) : Option Settings := do
  let root ← Document.ofText? text
  let analysis ← section? root "analysis"
  let output ← section? root "output"
  let unset : Settings := {}
  if !othersReadable root then
    none
  return {
    maxConditionals := ← count? unset.maxConditionals (analysis 0 "max_conditionals")
    warningsAsErrors := ← flag? unset.warningsAsErrors (analysis 1 "warnings_as_errors")
    verbose := ← flag? unset.verbose (output 0 "verbose") }

end LogicalScheme.Settings
