/-!
This module contains the settings of an analysis.
-/

namespace LogicalScheme

structure Settings where
  /-- The most conditional vertices of a scheme whose condition vectors are all tried. -/
  maxConditionals : Nat := 20
  /-- A scheme with warnings is rejected. -/
  warningsAsErrors : Bool := false
  /-- Runs are shown with descriptions of elements. -/
  verbose : Bool := false
  deriving DecidableEq

end LogicalScheme
