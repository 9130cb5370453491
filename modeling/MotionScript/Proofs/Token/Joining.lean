import MotionScript.Proofs.Token.Places
/-!
# Texts behind separators

A text that is set apart from what stands in front of it is read as it is read alone: its tokens and
its fault are the same ones, found further on.
-/

namespace MotionScript

open Text

/-! ## Places behind an origin -/

namespace Position

/-- Where a place of a text is if the text starts at `origin`. -/
def behind (origin p : Position) : Position :=
  if p.row = 0 then ⟨origin.row, origin.column + p.column⟩ else ⟨origin.row + p.row, p.column⟩

theorem behind_start (origin : Position) : origin.behind ⟨0, 0⟩ = origin := rfl

theorem row_behind (origin p : Position) : (origin.behind p).row = origin.row + p.row := by
  unfold behind
  split
  · rename_i hrow
    rw [hrow, Nat.add_zero]
  · rfl

theorem behind_lineBreak (origin p : Position) :
    origin.behind ⟨p.row + 1, 0⟩ = ⟨(origin.behind p).row + 1, 0⟩ := by
  rw [row_behind, behind, if_neg (Nat.succ_ne_zero _), Nat.add_assoc]

theorem behind_advance (origin p : Position) (count : Nat) :
    origin.behind (p.advance count) = (origin.behind p).advance count := by
  unfold behind advance
  split
  · rw [Nat.add_assoc]
  · rfl

theorem walk_behind (origin p : Position) (cs : List Char) :
    (origin.behind p).walk cs = origin.behind (p.walk cs) := by
  fun_induction walk p cs with
  | case1 => rfl
  | case2 p rest ih => rw [walk, ← behind_lineBreak, ih]
  | case3 p c rest hcr ih =>
    rw [← ih, walk_cons (head_of_not_crlf hcr)]
    split
    · rw [behind_lineBreak]
    · rw [behind_advance]

/-- What is walked along behind a text is walked along as if it stood alone, from some place on. -/
theorem exists_origin (p : Position) (xs ys : List Char) :
    ∃ origin : Position, p.walk (xs ++ ys) = origin.behind (walk ⟨0, 0⟩ ys) := by
  by_cases hbreak : xs.getLast? = some '\r' ∧ ys.head? = some '\n'
  · -- The line break between the texts ends a row of the second one.
    obtain ⟨front, rfl⟩ := List.getLast?_eq_some_iff.1 hbreak.1
    obtain ⟨rest, rfl⟩ := List.head?_eq_some_iff.1 hbreak.2
    refine ⟨p.walk front, ?_⟩
    have hfeed : walk ⟨0, 0⟩ ('\n' :: rest) = walk ⟨1, 0⟩ rest :=
      walk_cons fun h => absurd h (by decide)
    rw [List.append_assoc, walk_append (by simp), hfeed, ← walk_behind,
      behind_lineBreak _ ⟨0, 0⟩, behind_start]
    rfl
  · refine ⟨p.walk xs, ?_⟩
    rw [walk_append fun hlast hhead => hbreak ⟨hlast, hhead⟩, ← walk_behind, behind_start]

end Position

section Behind

variable (bytes : Nat) (origin : Position)

def Token.behind (t : Token) : Token :=
  { t with span := t.span.later bytes, position := origin.behind t.position }

def Label.behind (l : Label) : Label := { l with span := l.span.later bytes }

def Diagnostic.behind (d : Diagnostic) : Diagnostic :=
  { d with labels := d.labels.map (·.behind bytes), position := d.position.map origin.behind }

def Failure.behind (f : Failure) : Failure :=
  ⟨f.diagnostic.behind bytes origin, origin.behind f.position⟩

/-- The tokens and the fault of a text with `bytes` bytes in front of it, if it starts at
`origin`. -/
def Lexer.Stream.behind (s : Lexer.Stream) : Lexer.Stream :=
  ⟨s.tokens.map (·.behind bytes origin), s.failure.map (·.behind bytes origin)⟩

end Behind

namespace Lexer

/-! ## Streams behind an origin -/

theorem Stuck.failure_behind (stuck : Stuck) (bytes : Nat) (origin : Position) (start : Nat)
    (p : Position) (cs : List Char) :
    stuck.failure (start + bytes) (origin.behind p) cs =
      (stuck.failure start p cs).behind bytes origin := by
  have hstop : min (max (start + bytes + byteSize (taken cs stuck.rest)) (start + bytes + 1))
        (start + bytes + byteSize cs) =
      min (max (start + byteSize (taken cs stuck.rest)) (start + 1)) (start + byteSize cs) +
        bytes := by
    omega
  simp only [Stuck.failure, hstop, Position.walk_behind]
  rfl

/-- A text is read alike wherever it starts. -/
theorem streamAt_behind (symbols : SymbolSet) (bytes : Nat) (origin : Position) (cs : List Char)
    (start : Nat) (p : Position) :
    streamAt symbols (start + bytes) (origin.behind p) cs =
      (streamAt symbols start p cs).behind bytes origin := by
  cases cs with
  | nil => rfl
  | cons c body =>
    simp only [streamAt]
    cases hl : lexeme symbols (c :: body) with
    | error stuck =>
      simp only [Stuck.failure_behind]
      rfl
    | ok l =>
      -- The rest is read from behind the separators that follow the token.
      have hshort : (l.rest.dropWhile isSeparator).length < (c :: body).length :=
        (length_dropWhile_le isSeparator l.rest).trans_lt (lexeme_length hl)
      have hstop (start : Nat) (read : List Char) :
          start + bytes + byteSize read = start + byteSize read + bytes := by omega
      simp only [streamFrom_eq symbols l.rest, Position.walk_behind, hstop,
        streamAt_behind symbols bytes origin (l.rest.dropWhile isSeparator)]
      simp only [Stream.prepend, Stream.behind, List.map_append]
      rfl
termination_by cs.length
decreasing_by exact hshort

/-! ## Joining -/

/-- Separators in front of a text move it, and nothing else. -/
theorem exists_streamFrom_gap (symbols : SymbolSet) {gap : List Char}
    (hg : ∀ c ∈ gap, isSeparator c = true) (cs : List Char) (o : Nat) (p : Position) :
    ∃ origin, streamFrom symbols (gap ++ cs) o p =
      (streamFrom symbols cs 0 ⟨0, 0⟩).behind (o + byteSize gap) origin := by
  obtain ⟨origin, horigin⟩ := p.exists_origin gap (cs.takeWhile isSeparator)
  refine ⟨origin, ?_⟩
  have hoffset : o + byteSize (gap ++ cs.takeWhile isSeparator) =
      0 + byteSize (cs.takeWhile isSeparator) + (o + byteSize gap) := by
    rw [byteSize_append]
    omega
  rw [streamFrom_eq, streamFrom_eq symbols cs, List.takeWhile_append_of_pos hg,
    List.dropWhile_append_of_pos hg, horigin, hoffset, streamAt_behind]

/-- A text behind separators is read as it is read alone, behind the tokens of what stands in front of
the separators, if this has no fault: the tokens in front do not change at all, and those of the text
and its fault are moved by what stands in front. -/
theorem tokenize_separated {symbols : SymbolSet} (hsymbols : symbols.Proper) {front gap : String}
    (hfront : (tokenize symbols front).failure = none) (hne : gap ≠ "")
    (hgap : ∀ c ∈ gap.toList, isSeparator c = true) (back : String) :
    ∃ origin, tokenize symbols (front ++ gap ++ back) =
      ((tokenize symbols back).behind (byteSize front.toList + byteSize gap.toList)
        origin).prepend (tokenize symbols front).tokens := by
  have hcuts := CutsAlike.separators (fun hnil => hne (String.toList_inj.1 hnil)) hgap back.toList
  obtain ⟨rest, o, p, hrest, ho, -, hread⟩ := exists_tokenize_append hsymbols hfront hcuts
  obtain ⟨origin, horigin⟩ := exists_streamFrom_gap symbols
    (List.forall_mem_append.2 ⟨hrest, hgap⟩) back.toList o p
  have hbytes : o + byteSize (rest ++ gap.toList) =
      byteSize front.toList + byteSize gap.toList := by
    rw [byteSize_append]
    omega
  refine ⟨origin, ?_⟩
  rw [tokenize, String.toList_append, String.toList_append, List.append_assoc, hread,
    ← List.append_assoc, horigin, hbytes]
  rfl

/-- A word that could go on as an exponent, in front of a sign, a digit and a string without an
end. -/
theorem tokenize_separated_exponent :
    (tokenize .document "*1e").failure = none ∧ "\t\r" ≠ "" ∧
      (∀ c ∈ "\t\r".toList, isSeparator c = true) ∧
      ∃ origin, tokenize .document ("*1e" ++ "\t\r" ++ "\n+5 'a") =
        ((tokenize .document "\n+5 'a").behind
          (byteSize "*1e".toList + byteSize "\t\r".toList) origin).prepend
            (tokenize .document "*1e").tokens := by
  have hfront : (tokenize .document "*1e").failure = none := by decide +kernel
  have hne : "\t\r" ≠ "" := by decide
  have hgap : ∀ c ∈ "\t\r".toList, isSeparator c = true := List.all_eq_true.1 (by decide)
  exact ⟨hfront, hne, hgap, tokenize_separated .document hfront hne hgap "\n+5 'a"⟩

end Lexer

end MotionScript
