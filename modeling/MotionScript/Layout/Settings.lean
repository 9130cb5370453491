import MotionScript.Number.Binary
/-!
# Settings of the layout
-/

namespace MotionScript

/-- The constants of the layout. Distances are measured in units. -/
structure LayoutSettings where
  /-- Pixels in a unit. -/
  unitDistance : Single := .ofInt 12
  /-- Nearer than this, edges stop pulling and bodies push harder. -/
  minDistance : Single := .ofInt 20
  /-- The largest force on a body at rest. -/
  epsilon : Single := .ofRatio false 1 100
  attraction : Single := .ofRatio false 1 10
  repulsion : Single := .ofRatio false 1 2
  /-- The part of a force that is kept as residual. -/
  damping : Single := .ofRatio false 3 4
  /-- The most steps that are taken. -/
  iterations : Nat := 100
  seed : UInt64 := 0x5EED
deriving DecidableEq, BEq, Repr, Inhabited

end MotionScript
