/-!
# Source locations

A span is a range of byte offsets, a position a row and a column. Rows and columns count from zero,
columns in characters.
-/

namespace MotionScript

/-- A range of byte offsets into a text. -/
structure Span where
  start : Nat
  stop : Nat
deriving DecidableEq, Repr, Inhabited

namespace Span

def size (s : Span) : Nat := s.stop - s.start

def isEmpty (s : Span) : Bool := s.start == s.stop

/-- The least span that covers both. -/
def union (s t : Span) : Span := ⟨min s.start t.start, max s.stop t.stop⟩

end Span

/-- A row and a column of a text. -/
structure Position where
  row : Nat
  column : Nat
deriving DecidableEq, Repr, Inhabited

namespace Position

/-- Further along the same row. -/
def advance (p : Position) (count : Nat) : Position := { p with column := p.column + count }

instance : ToString Position := ⟨fun p => s!"{p.row}:{p.column}"⟩

/-- Reading order. -/
def order (p q : Position) : Ordering := (compare p.row q.row).then (compare p.column q.column)

/-- The position behind a text that starts at `p`: a line feed, a carriage return, or both in this
order as one, end a row. -/
def walk (p : Position) : List Char → Position
  | [] => p
  | '\r' :: '\n' :: rest => walk ⟨p.row + 1, 0⟩ rest
  | c :: rest => walk (if c = '\n' ∨ c = '\r' then ⟨p.row + 1, 0⟩ else p.advance 1) rest

end Position

/-- The number of bytes a text takes. -/
def byteSize (cs : List Char) : Nat := cs.foldr (fun c size => c.utf8Size + size) 0

end MotionScript
