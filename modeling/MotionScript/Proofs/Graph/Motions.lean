import Mathlib.Data.List.Forall2
import MotionScript.Canonical.Motion
import MotionScript.Proofs.Graph.Equality
/-!
# Motions as trees

When the motion of one controller is the motion of another one, and which motions can be written.
-/

namespace MotionScript

/-! ## The same motion -/

theorem Vec2.beq_iff {f : Format} (a b : Vec2 (Binary f)) :
    (a == b) = true ↔ (a.x == b.x) = true ∧ (a.y == b.y) = true := by
  show instBEqVec2.beq a b = true ↔ _
  cases a
  cases b
  simp only [instBEqVec2.beq, Bool.and_eq_true]

/-- Whether two child slots are equal, whatever fills them. -/
def ChildMotion.SameSlot (a b : ChildMotion) : Prop :=
  ({ a with motion := none } == { b with motion := none }) = true

theorem ChildMotion.sameSlot_iff (a b : ChildMotion) : a.SameSlot b ↔
    (a.threshold == b.threshold) = true ∧ (a.position == b.position) = true ∧
      a.directParameter = b.directParameter ∧ (a.timeScale == b.timeScale) = true ∧
      (a.cycleOffset == b.cycleOffset) = true ∧ a.mirror = b.mirror := by
  show instBEqChildMotion.beq _ _ = true ↔ _
  cases a
  cases b
  simp only [instBEqChildMotion.beq, Bool.and_eq_true, beq_iff_eq]
  simp

/-- Whether a motion of one controller is the same tree as one of another controller. -/
inductive SameMotion (c c' : Controller) : Option MotionId → Option MotionId → Prop where
  | none : SameMotion c c' none none
  | clip {id id' : MotionId} (h : c'.motion id' = c.motion id)
    (hc : ∃ asset, c.motion id = .clip asset) : SameMotion c c' (some id) (some id')
  | tree {id id' : MotionId} {t : BlendTree} {children : List ChildMotion}
    (h : c.motion id = .tree t) (h' : c'.motion id' = .tree { t with children })
    (slots : List.Forall₂ ChildMotion.SameSlot t.children children)
    (motions : List.Forall₂ (fun a b => SameMotion c c' a.motion b.motion) t.children children) :
    SameMotion c c' (some id) (some id')

/-! ## Motions that can be written -/

/-- Whether a host without asset root finds a reference. -/
def Asset.Resolves (reference : String) : Prop :=
  (guidOf? reference).isSome = true ∨ (splitFragment reference).1 ≠ ""

/-- Whether the modifiers of a child can be written. -/
structure ChildMotion.Finite (m : ChildMotion) : Prop where
  timeScale : m.timeScale.isFinite = true
  cycleOffset : m.cycleOffset.isFinite = true

/-- Whether the key of a child in a tree of a type can be written: what the type does not use is at
its default. -/
def ChildMotion.Keyed (m : ChildMotion) : BlendType → Prop
  | .direct => m.threshold.isZero = true ∧ m.position.x.isZero = true ∧ m.position.y.isZero = true
  | .simple1D => m.threshold.isFinite = true ∧ (m.position.x == m.threshold) = true ∧
      m.position.y.isZero = true ∧ m.directParameter = ""
  | _ => m.position.x.isFinite = true ∧ m.position.y.isFinite = true ∧
      (m.threshold == m.position.x) = true ∧ m.directParameter = ""

/-- Whether the line that opens a blend tree can be written: the parameters that its type does not
use are empty. -/
structure BlendTree.Writable (t : BlendTree) : Prop where
  parameter : t.blendType.parameterCount = 0 → t.parameter = ""
  parameterY : t.blendType.isPlanar = false → t.parameterY = ""
  thresholds : ∀ x ∈ t.thresholds, x.1.isFinite = true ∧ x.2.isFinite = true

/-- Whether a motion can be written. Trees are nested at most `depth` deep. -/
inductive Controller.MotionWritable (c : Controller) : (depth : Nat) → Option MotionId → Prop where
  | empty (depth : Nat) : c.MotionWritable depth none
  | clip (depth : Nat) {id : MotionId} {reference : String}
    (h : c.motion id = .clip ⟨reference, .animationClip⟩) (hr : Asset.Resolves reference) :
    c.MotionWritable depth (some id)
  | tree {depth : Nat} {id : MotionId} {t : BlendTree} (h : c.motion id = .tree t)
    (ht : t.Writable) (hs : ∀ m ∈ t.children, m.Finite ∧ m.Keyed t.blendType)
    (hm : ∀ m ∈ t.children, c.MotionWritable depth m.motion) :
    c.MotionWritable (depth + 1) (some id)

/-- Whether a motion can be written for a host that finds some clips. Trees are nested at most `depth`
deep. -/
inductive Controller.MotionWritableFor (c : Controller) (finds : String → Prop) :
    (depth : Nat) → Option MotionId → Prop where
  | empty (depth : Nat) : c.MotionWritableFor finds depth none
  | clip (depth : Nat) {id : MotionId} {reference : String}
    (h : c.motion id = .clip ⟨reference, .animationClip⟩) (hr : finds reference) :
    c.MotionWritableFor finds depth (some id)
  | tree {depth : Nat} {id : MotionId} {t : BlendTree} (h : c.motion id = .tree t)
    (ht : t.Writable) (hs : ∀ m ∈ t.children, m.Finite ∧ m.Keyed t.blendType)
    (hm : ∀ m ∈ t.children, c.MotionWritableFor finds depth m.motion) :
    c.MotionWritableFor finds (depth + 1) (some id)

/-- What can be written without an asset root can be written for a host that finds every reference
that such a host finds. -/
theorem Controller.MotionWritable.resolves {c : Controller} {depth : Nat} {motion : Option MotionId}
    (h : c.MotionWritable depth motion) : c.MotionWritableFor Asset.Resolves depth motion := by
  induction h with
  | empty depth => exact .empty depth
  | clip depth h hr => exact .clip depth h hr
  | tree h ht hs _ ih => exact .tree h ht hs ih

end MotionScript
