/-!
# Paths

A path names a state or a machine by the names of the scopes that lead to it, its layer first.
-/

namespace MotionScript

structure Path where
  segments : List String
deriving DecidableEq, Repr, Inhabited

namespace Path

def root : Path := ⟨[]⟩

def depth (p : Path) : Nat := p.segments.length

def isRoot (p : Path) : Bool := p.segments.isEmpty

/-- The last segment. -/
def name? (p : Path) : Option String := p.segments.getLast?

/-- The path with a segment appended. -/
def join (p : Path) (segment : String) : Path := ⟨p.segments ++ [segment]⟩

/-- The path with every segment of another one appended. -/
def concat (p q : Path) : Path := ⟨p.segments ++ q.segments⟩

/-- The path without its last `count` segments; fails if it has fewer. -/
def up (p : Path) (count : Nat) : Except String Path :=
  if p.depth < count then
    .error s!"cannot remove {count} segment(s) from a path of depth {p.depth}"
  else .ok ⟨p.segments.take (p.depth - count)⟩

/-- The path without its last segment; the root has none. -/
def parent? (p : Path) : Option Path := if p.isRoot then none else some ⟨p.segments.dropLast⟩

instance : ToString Path := ⟨fun p => "/".intercalate p.segments⟩

/-- Lexicographic order by segment. -/
def order (p q : Path) : Ordering := compareSegments p.segments q.segments
where
  compareSegments : List String → List String → Ordering
    | [], [] => .eq
    | [], _ :: _ => .lt
    | _ :: _, [] => .gt
    | a :: as, b :: bs => (compare a b).then (compareSegments as bs)

end Path

end MotionScript
