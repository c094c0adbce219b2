import LogicalScheme.Automaton
import LogicalScheme.ConditionVector

/-!
This module contains loops, which are cycles of elements on the path of a run. A cycle is written
from its entry on, so that it is one loop wherever a run came into it.
-/

namespace LogicalScheme

structure Loop where
  /-- The elements of the cycle from its entry on. -/
  elements : List ElementRef
  names : List Name
  deriving DecidableEq

namespace Loop

def length (l : Loop) : Nat :=
  l.elements.length

def text (l : Loop) : String :=
  " ".intercalate (l.names.map (·.text))

instance : ToString Loop where
  toString := text

/--
The stretches of a path that lead from an element to its next occurrence, without that occurrence.
-/
def laps : List ElementRef → List (List ElementRef)
  | [] => []
  | r :: path =>
    match path.idxOf? r with
    | some k => (r :: path.take k) :: laps path
    | none => laps path

/--
The place where a cycle is entered if it is entered through `r`: a jump leads to the successor of
its jump point, and a jump point is its own entry.
-/
def entryThrough? (a : Automaton) (r : ElementRef) : Option ElementRef :=
  (a.element? r).bind fun e =>
    match e.kind with
    | .jump index _ => (a.jumpPoint? index).bind a.next?
    | .jumpPoint _ => some r
    | _ => none

def entries (a : Automaton) (cycle : List ElementRef) : List ElementRef :=
  (cycle.filterMap (entryThrough? a)).filter (cycle.contains ·)

/--
The first element of a loop: of all entries the one that stands first in the scheme, or the element
that stands first if there are no entries.
-/
def first? (a : Automaton) (cycle : List ElementRef) : Option ElementRef :=
  ((entries a cycle).minOn? a.position).or (cycle.minOn? a.position)

def canonical (a : Automaton) (cycle : List ElementRef) : List ElementRef :=
  match first? a cycle with
  | some r => cycle.dropWhile (· != r) ++ cycle.takeWhile (· != r)
  | none => cycle

def ofPath (a : Automaton) (path : List ElementRef) : List Loop :=
  ((laps path).map (canonical a)).eraseDups.map fun cycle => ⟨cycle, cycle.map a.name⟩

end Loop

structure LoopReport where
  /-- The number of vectors that were tried. -/
  assignments : Nat := 0
  /-- The loops in the order in which they were found. -/
  loops : List (Loop × List ConditionVector) := []
  deriving DecidableEq

namespace LoopReport

def note (v : ConditionVector) (l : Loop)
    : List (Loop × List ConditionVector) → List (Loop × List ConditionVector)
  | [] => [(l, [v])]
  | (k, vs) :: loops => if k = l then (k, vs ++ [v]) :: loops else (k, vs) :: note v l loops

def record (report : LoopReport) (v : ConditionVector) (found : List Loop) : LoopReport :=
  { assignments := report.assignments + 1
    loops := found.foldl (fun loops l => note v l loops) report.loops }

end LoopReport

end LogicalScheme
