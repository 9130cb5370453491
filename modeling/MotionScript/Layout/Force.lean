import MotionScript.Graph.Controller
import MotionScript.Layout.Noise
import MotionScript.Layout.Settings
/-!
# Layout by forces

Nodes are bodies in the plane. An edge pulls its ends together once they are further apart than the
least distance; every body is pushed away by all others and by the middles of the edges it is not an
end of. Bodies and edges keep the order in which they were added, and sums are taken in that order.
-/

namespace MotionScript

/-- A node of the layout of one machine. -/
inductive LayoutNode where
  | entry
  | exit
  | any
  | state (id : StateId)
  | machine (id : MachineId)
deriving DecidableEq, Repr

def Destination.layoutNode : Destination → LayoutNode
  | .state id => .state id
  | .machine id => .machine id
  | .exit => .exit

/-- A node in motion; position and residual are in units. -/
structure Body where
  node : LayoutNode
  position : Vec2 Float32
  /-- The damped force of the last step. -/
  residual : Vec2 Float32
deriving Repr

structure Layout where
  settings : LayoutSettings
  bodies : List Body := []
  /-- Pairs of nodes, each in the orientation in which it was first added. -/
  edges : List (LayoutNode × LayoutNode) := []
  noise : Noise
deriving Repr

namespace Layout

/-- A layout without nodes. -/
def empty (settings : LayoutSettings) : Layout where
  settings
  noise := { seed := settings.seed }

def body? (l : Layout) (node : LayoutNode) : Option Body := l.bodies.find? (·.node = node)

def hasNode (l : Layout) (node : LayoutNode) : Bool := (l.body? node).isSome

/-- Whether there is an edge between two nodes, in either orientation. -/
def hasEdge (l : Layout) (a b : LayoutNode) : Bool :=
  l.edges.contains (a, b) || l.edges.contains (b, a)

/-- Adds a node at a position in pixels. A node that is there already is moved and comes to rest. -/
def addNode (l : Layout) (node : LayoutNode) (position : Vec2 Float32) : Layout :=
  let unit := l.settings.unitDistance.toFloat32
  let body : Body := ⟨node, position.map (· / unit), .zero⟩
  if l.hasNode node then
    { l with bodies := l.bodies.map fun old => if old.node = node then body else old }
  else { l with bodies := l.bodies ++ [body] }

/-- Adds an edge between nodes of the layout, unless there is one between them. -/
def addEdge (l : Layout) (a b : LayoutNode) : Layout :=
  if l.hasNode a && l.hasNode b && !l.hasEdge a b then { l with edges := l.edges ++ [(a, b)] }
  else l

/-- The position of a body in pixels. -/
def pixels (l : Layout) (body : Body) : Vec2 Float32 :=
  body.position.scale l.settings.unitDistance.toFloat32

/-- The position of a node in pixels. -/
def position? (l : Layout) (node : LayoutNode) : Option (Vec2 Float32) :=
  (l.body? node).map l.pixels

/-! ## Forces -/

/-- Nearer than this, two points have no direction. -/
def coincident : Float32 := 0.0001

/-- Nudges a point until it does not coincide with the origin. The search has no bound: what it gives
for a point that no nudge parts from the origin is left open. -/
def separate? (noise : Noise) (point : Vec2 Float32) : Option (Vec2 Float32 × Noise) :=
  have : Nonempty (Vec2 Float32 × Noise) := ⟨(point, noise)⟩
  repeatM (fun (point, noise) =>
    if point.length < coincident then
      let (nudge, noise) := noise.nudge
      some (.inl (point + nudge, noise))
    else some (.inr (point, noise))) (point, noise)

/-- The force with which a body that has another point ahead of it by `delta` is pushed away, as a
force towards that point. -/
def push (s : LayoutSettings) (noise : Noise) (delta : Vec2 Float32) : Vec2 Float32 × Noise :=
  let (delta, noise) := (separate? noise delta).getD (delta, noise)
  let distance := delta.length
  let least := s.minDistance.toFloat32
  let strength := s.repulsion.toFloat32 / distance
  let strength := if distance < least then greater strength (least - distance) else strength
  (delta.normalized.scale strength, noise)

/-- The pull of an edge on its first end, if it is long enough to pull. -/
def pull? (s : LayoutSettings) (a b : Vec2 Float32) : Option (Vec2 Float32) :=
  let delta := b - a
  let distance := delta.length
  let least := s.minDistance.toFloat32
  if distance < least then none
  else some (delta.normalized.scale ((distance - least) * s.attraction.toFloat32))

/-- Positions by index, and edges as pairs of indices. -/
structure Frozen where
  positions : Array (Vec2 Float32)
  edges : List (Nat × Nat)

def Frozen.position (f : Frozen) (i : Nat) : Vec2 Float32 := f.positions.getD i .zero

def frozen (l : Layout) : Frozen where
  positions := (l.bodies.map (·.position)).toArray
  edges := l.edges.filterMap fun (a, b) => do
    return (← l.bodies.findIdx? (·.node = a), ← l.bodies.findIdx? (·.node = b))

/-- What all edges pull at each body. -/
def pulls (s : LayoutSettings) (f : Frozen) : Array (Vec2 Float32) :=
  f.edges.foldl (fun forces (a, b) =>
      match pull? s (f.position a) (f.position b) with
      | none => forces
      | some force => (forces.modify a (· + force)).modify b (· - force))
    (Array.replicate f.positions.size .zero)

/-- The points that push body `i`: the other bodies, then the middles of the edges elsewhere. -/
def pushingPoints (f : Frozen) (i : Nat) : List (Vec2 Float32) :=
  (f.positions.toList.zipIdx.filterMap fun (p, j) => if i = j then none else some p) ++
    f.edges.filterMap fun (a, b) =>
      if a = i ∨ b = i then none else some ((f.position a).midpoint (f.position b))

/-- Adds to a force on body `i` what pushes it. -/
def pushed (s : LayoutSettings) (f : Frozen) (i : Nat) (force : Vec2 Float32) (noise : Noise) :
    Vec2 Float32 × Noise :=
  (pushingPoints f i).foldl (fun (force, noise) point =>
      let (away, noise) := push s noise (point - f.position i)
      (force - away, noise))
    (force, noise)

/-- The force on each body. -/
def forces (l : Layout) : List (Vec2 Float32) × Noise :=
  let f := l.frozen
  let (forces, noise) := (pulls l.settings f).toList.zipIdx.foldl (fun (forces, noise) (force, i) =>
      let (force, noise) := pushed l.settings f i force noise
      (force :: forces, noise))
    ([], l.noise)
  (forces.reverse, noise)

/-- Applies a force, limited in length, to a body. -/
def Body.apply (body : Body) (force : Vec2 Float32) (limit damping : Float32) : Body :=
  let force := force.clampLength limit
  { body with position := body.position + force, residual := force.scale damping }

/-- Moves all bodies by the forces on them, none by more than half the diagonal of the layout. Tells
whether all bodies were at rest. -/
def step (l : Layout) : Bool × Layout :=
  match Bounds.ofPoints (l.bodies.map (·.position)) with
  | none => (true, l)
  | some bounds =>
    let (forces, noise) := l.forces
    let limit := bounds.diagonal * 0.5
    let damping := l.settings.damping.toFloat32
    let epsilon := l.settings.epsilon.toFloat32
    (forces.all fun force => !decide (epsilon < force.length),
      { l with
        bodies :=
          List.zipWith (fun body force => Body.apply body force limit damping) l.bodies forces
        noise })

/-- How many steps were taken, and whether the last one found all bodies at rest. -/
structure Outcome where
  steps : Nat
  stable : Bool
deriving DecidableEq, Repr

/-- Takes at most `limit` further steps behind `steps` taken, up to the first that finds all bodies
at rest. -/
def iterateFrom (l : Layout) (steps : Nat) : Nat → Outcome × Layout
  | 0 => (⟨steps, false⟩, l)
  | limit + 1 =>
    let (stable, l) := l.step
    if stable then (⟨steps + 1, true⟩, l) else iterateFrom l (steps + 1) limit

/-- Takes at most `limit` steps, up to the first that finds all bodies at rest. -/
def iterate (l : Layout) (limit : Nat) : Outcome × Layout := l.iterateFrom 0 limit

end Layout

end MotionScript
