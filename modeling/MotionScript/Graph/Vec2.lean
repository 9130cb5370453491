import MotionScript.Number.Binary
/-!
# Vectors in the plane

Node positions and forces. Positions have their origin at the top left, in pixels.
-/

namespace MotionScript

structure Vec2 (α : Type) where
  x : α
  y : α
deriving DecidableEq, BEq, Repr, Inhabited

namespace Vec2

def map {α β : Type} (f : α → β) (v : Vec2 α) : Vec2 β := ⟨f v.x, f v.y⟩

instance {α : Type} [Add α] : Add (Vec2 α) := ⟨fun a b => ⟨a.x + b.x, a.y + b.y⟩⟩

instance {α : Type} [Sub α] : Sub (Vec2 α) := ⟨fun a b => ⟨a.x - b.x, a.y - b.y⟩⟩

instance {α : Type} [Neg α] : Neg (Vec2 α) := ⟨fun a => ⟨-a.x, -a.y⟩⟩

def scale {α : Type} [Mul α] (a : Vec2 α) (factor : α) : Vec2 α := ⟨a.x * factor, a.y * factor⟩

def zero : Vec2 Float32 := ⟨0, 0⟩

/-- Euclidean length: the root of the sum of squares is taken in 64 bits and rounded once. An
infinite component makes it infinite, whatever the other one is. -/
def length (a : Vec2 Float32) : Float32 :=
  if a.x.isInf || a.y.isInf then 1 / 0
  else (a.x.toFloat * a.x.toFloat + a.y.toFloat * a.y.toFloat).sqrt.toFloat32

/-- The unit vector in the same direction, zero if the length is not positive. -/
def normalized (a : Vec2 Float32) : Vec2 Float32 :=
  let length := a.length
  if 0 < length then a.scale (1 / length) else zero

/-- Shortens a vector to `limit` when it is longer. -/
def clampLength (a : Vec2 Float32) (limit : Float32) : Vec2 Float32 :=
  let length := a.length
  if limit < length ∧ 0 < length then a.scale (limit / length) else a

def midpoint (a b : Vec2 Float32) : Vec2 Float32 := ⟨(a.x + b.x) / 2, (a.y + b.y) / 2⟩

/-- Rounds both components to integers, a half away from zero. -/
def round (a : Vec2 Float32) : Vec2 Float32 := a.map Float32.round

end Vec2

/-- The lesser number; one that is not a number gives way. -/
def lesser (a b : Float32) : Float32 := if a.isNaN then b else if b < a then b else a

/-- The greater number; one that is not a number gives way. -/
def greater (a b : Float32) : Float32 := if a.isNaN then b else if a < b then b else a

/-- An axis-aligned box. -/
structure Bounds where
  low : Vec2 Float32
  high : Vec2 Float32

namespace Bounds

/-- The least box around a point and a box. -/
def insert (b : Bounds) (p : Vec2 Float32) : Bounds :=
  ⟨⟨lesser b.low.x p.x, lesser b.low.y p.y⟩, ⟨greater b.high.x p.x, greater b.high.y p.y⟩⟩

/-- The least box around points; there is none around no point. -/
def ofPoints : List (Vec2 Float32) → Option Bounds
  | [] => none
  | p :: rest => some (rest.foldl insert ⟨p, p⟩)

/-- Length of the diagonal. -/
def diagonal (b : Bounds) : Float32 := (b.high - b.low).length

end Bounds

end MotionScript
