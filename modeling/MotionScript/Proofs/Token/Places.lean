import MotionScript.Proofs.Token.Boundaries
/-!
# Texts at other places

Tokens do not depend on where in a document their text is; only their spans and positions do. Two
texts that are joined are read one after the other if the first one ends with whole tokens.
-/

namespace MotionScript

open Text

/-! ## Positions -/

namespace Position

theorem walk_cons {p : Position} {c : Char} {cs : List Char}
    (h : c = '\r' → cs.head? ≠ some '\n') :
    p.walk (c :: cs) = (if c = '\n' ∨ c = '\r' then ⟨p.row + 1, 0⟩ else p.advance 1).walk cs := by
  rw [walk]
  rintro rest rfl rfl
  exact h rfl rfl

theorem head_of_not_crlf {c : Char} {cs : List Char}
    (h : ∀ rest, c = '\r' → cs = '\n' :: rest → False) : c = '\r' → cs.head? ≠ some '\n' := by
  intro hc hhead
  obtain ⟨rest, rfl⟩ := List.head?_eq_some_iff.1 hhead
  exact h rest hc rfl

/-- Texts can be walked along one after the other, unless a line break is split between them. -/
theorem walk_append {p : Position} {xs ys : List Char}
    (h : xs.getLast? = some '\r' → ys.head? ≠ some '\n') :
    p.walk (xs ++ ys) = (p.walk xs).walk ys := by
  fun_induction walk p xs with
  | case1 => rfl
  | case2 p rest ih =>
    refine ih fun hlast => h ?_
    cases rest with
    | nil => cases hlast
    | cons c rest => simpa using hlast
  | case3 p c rest hcr ih =>
    have hsplit : c = '\r' → (rest ++ ys).head? ≠ some '\n' := by
      rintro rfl
      cases rest with
      | nil => exact h rfl
      | cons d rest =>
        rintro hd
        obtain rfl : d = '\n' := by simpa using hd
        exact hcr rest rfl rfl
    rw [List.cons_append, walk_cons hsplit]
    refine ih fun hlast => h ?_
    cases rest with
    | nil => cases hlast
    | cons d rest => simpa using hlast

theorem row_le_walk (p : Position) (cs : List Char) : p.row ≤ (p.walk cs).row := by
  fun_induction walk p cs with
  | case1 => exact Nat.le_refl _
  | case2 p rest ih => exact Nat.le_of_succ_le ih
  | case3 p c rest _ ih =>
    refine Nat.le_trans ?_ ih
    split
    · exact Nat.le_succ _
    · exact Nat.le_refl _

/-- The place further down in a document. -/
def down (rows : Nat) (p : Position) : Position := ⟨p.row + rows, p.column⟩

theorem walk_down (rows : Nat) (p : Position) (cs : List Char) :
    (p.down rows).walk cs = (p.walk cs).down rows := by
  fun_induction walk p cs with
  | case1 => rfl
  | case2 p rest ih =>
    rw [walk, ← ih, down, down, Nat.add_right_comm]
  | case3 p c rest hcr ih =>
    rw [← ih, walk_cons (head_of_not_crlf hcr)]
    congr 1
    split
    · simp only [down, Nat.add_right_comm]
    · rfl

/-- A line feed starts a new row. -/
theorem walk_lineFeed (p : Position) (cs : List Char) :
    ∃ row, p.row < row ∧ p.walk (cs ++ ['\n']) = ⟨row, 0⟩ := by
  fun_induction walk p cs with
  | case1 p => exact ⟨p.row + 1, Nat.lt_succ_self _, by simp [walk]⟩
  | case2 p rest ih =>
    obtain ⟨row, hrow, h⟩ := ih
    exact ⟨row, Nat.lt_of_succ_lt hrow, h⟩
  | case3 p c rest hcr ih =>
    obtain ⟨row, hrow, h⟩ := ih
    have hle : p.row ≤ (if c = '\n' ∨ c = '\r' then (⟨p.row + 1, 0⟩ : Position)
        else p.advance 1).row := by
      split
      · exact Nat.le_succ _
      · exact Nat.le_refl _
    by_cases hlast : c = '\r' ∧ rest = []
    · obtain ⟨rfl, rfl⟩ := hlast
      exact ⟨p.row + 1, Nat.lt_succ_self _, by simp [walk]⟩
    · refine ⟨row, Nat.lt_of_le_of_lt hle hrow, ?_⟩
      rw [List.cons_append, walk_cons, h]
      intro hc hhead
      cases rest with
      | nil => exact hlast ⟨hc, rfl⟩
      | cons d rest => exact head_of_not_crlf hcr hc (by simpa using hhead)

end Position

theorem byteSize_append (xs ys : List Char) : byteSize (xs ++ ys) = byteSize xs + byteSize ys := by
  induction xs with
  | nil => simp [byteSize]
  | cons x xs ih =>
    simp only [byteSize, List.cons_append, List.foldr_cons] at ih ⊢
    omega

theorem byteSize_pos {xs : List Char} (h : xs ≠ []) : 0 < byteSize xs := by
  obtain ⟨x, xs, rfl⟩ := List.exists_cons_of_ne_nil h
  simp only [byteSize, List.foldr_cons]
  have := x.utf8Size_pos
  omega

/-- The range with more text in front. -/
def Span.later (bytes : Nat) (s : Span) : Span := ⟨s.start + bytes, s.stop + bytes⟩

/-- The token with more text in front and above. -/
def Token.shifted (bytes rows : Nat) (t : Token) : Token :=
  { t with span := t.span.later bytes, position := t.position.down rows }

/-- What a failure says, wherever it is found. -/
def Failure.report (f : Failure) : Option Code × String := (f.code, f.message)

namespace Lexer

/-! ## What the tokens of a stream are like -/

/-- Tokens in front of a stream. -/
def Stream.prepend (tokens : List Token) (s : Stream) : Stream := ⟨tokens ++ s.tokens, s.failure⟩

/-- The tokens of a text that starts with a token. -/
def streamAt (symbols : SymbolSet) (start : Nat) (p : Position) : List Char → Stream
  | [] => ⟨[], none⟩
  | c :: body =>
    match lexeme symbols (c :: body) with
    | .error stuck => ⟨[], some (stuck.failure start p (c :: body))⟩
    | .ok l =>
      let read := taken (c :: body) l.rest
      let stop := start + byteSize read
      (streamFrom symbols l.rest stop (p.walk read)).prepend
        [⟨l.kind, String.ofList l.text, ⟨start, stop⟩, p⟩]

theorem streamFrom_eq (symbols : SymbolSet) (cs : List Char) (o : Nat) (p : Position) :
    streamFrom symbols cs o p =
      streamAt symbols (o + byteSize (cs.takeWhile isSeparator))
        (p.walk (cs.takeWhile isSeparator)) (cs.dropWhile isSeparator) := by
  rw [streamFrom]
  split
  · rename_i hd
    rw [hd]
    rfl
  · rename_i c body hd
    rw [hd, streamAt]
    split
    · rename_i hl
      rw [hl]
    · rename_i hl
      rw [hl]
      rfl

theorem streamFrom_start (symbols : SymbolSet) (cs : List Char) (o : Nat) (p : Position) :
    ∀ t ∈ (streamFrom symbols cs o p).tokens, o ≤ t.span.start := by
  fun_induction streamFrom symbols cs o p with
  | case1 => simp
  | case2 => simp
  | case3 =>
    rename_i ih
    intro t ht
    rcases List.mem_cons.1 ht with rfl | ht
    · exact Nat.le_add_right _ _
    · exact Nat.le_trans (by omega) (ih t ht)

theorem streamFrom_row (symbols : SymbolSet) (cs : List Char) (o : Nat) (p : Position) :
    ∀ t ∈ (streamFrom symbols cs o p).tokens, p.row ≤ t.position.row := by
  fun_induction streamFrom symbols cs o p with
  | case1 => simp
  | case2 => simp
  | case3 =>
    rename_i ih
    intro t ht
    rcases List.mem_cons.1 ht with rfl | ht
    · exact Position.row_le_walk _ _
    · exact ((Position.row_le_walk _ _).trans (Position.row_le_walk _ _)).trans (ih t ht)

/-- A text behind a gap. -/
theorem streamFrom_skip {symbols : SymbolSet} {gap cs : List Char}
    (hg : ∀ c ∈ gap, isSeparator c = true)
    (h : gap.getLast? = some '\r' → cs.head? ≠ some '\n') (o : Nat) (p : Position) :
    streamFrom symbols (gap ++ cs) o p = streamFrom symbols cs (o + byteSize gap) (p.walk gap) := by
  have htake : (gap ++ cs).takeWhile isSeparator = gap ++ cs.takeWhile isSeparator :=
    List.takeWhile_append_of_pos hg
  have hdrop : (gap ++ cs).dropWhile isSeparator = cs.dropWhile isSeparator :=
    List.dropWhile_append_of_pos hg
  have hwalk : p.walk (gap ++ cs.takeWhile isSeparator) =
      (p.walk gap).walk (cs.takeWhile isSeparator) := by
    refine Position.walk_append fun hlast hhead => h hlast ?_
    cases cs with
    | nil => simp at hhead
    | cons c cs =>
      rw [List.takeWhile_cons] at hhead
      split at hhead
      · exact hhead
      · cases hhead
  rw [streamFrom_eq symbols (gap ++ cs), streamFrom_eq symbols cs]
  simp only [htake, hdrop, byteSize_append, hwalk, Nat.add_assoc]

theorem streamFrom_gap_append {symbols : SymbolSet} {gap : List Char} {c : Char}
    (hg : ∀ c ∈ gap, isSeparator c = true) (hc : isSeparator c = false) (body : List Char) (o : Nat)
    (p : Position) :
    streamFrom symbols (gap ++ c :: body) o p =
      streamAt symbols (o + byteSize gap) (p.walk gap) (c :: body) := by
  obtain ⟨ht, hd⟩ := takeWhile_gap hg (c :: body) fun d hd => by cases hd; exact hc
  rw [streamFrom_eq, ht, hd]

/-! ## Joining texts -/

/-- A token that is followed by the end of a text or by a token behind `z` ends in front of `z`. -/
theorem exists_rest_of_stop {c : Char} {a z rest : List Char} (hs : rest <:+ c :: a ++ z)
    (h : byteSize (taken (c :: a ++ z) rest) ≤ byteSize (c :: a)) : ∃ d, rest = d ++ z := by
  refine exists_rest hs ?_
  by_contra hlen
  have hz : rest <:+ z :=
    List.suffix_of_suffix_length_le hs (List.suffix_append _ _) (by omega)
  obtain ⟨front, rfl⟩ := hz
  have hne : front ≠ [] := by
    rintro rfl
    exact hlen (Nat.le_refl _)
  have htaken : taken (c :: a ++ (front ++ rest)) rest = c :: a ++ front := by
    have := taken_append (c :: a ++ front) [] rest
    rw [List.nil_append, List.append_assoc] at this
    rw [this]
    simp [taken]
  rw [htaken, byteSize_append] at h
  have := byteSize_pos hne
  omega

theorem taken_append_rest {cs rest : List Char} (h : rest <:+ cs) : taken cs rest ++ rest = cs := by
  obtain ⟨front, rfl⟩ := h
  have := taken_append front [] rest
  rw [List.nil_append] at this
  rw [this]
  simp [taken]

/-- A text holds nothing but separators, or starts with a token behind some. -/
theorem separators_or_token (a : List Char) :
    (∀ c ∈ a, isSeparator c = true) ∨
      ∃ gap c body, a = gap ++ c :: body ∧ (∀ c ∈ gap, isSeparator c = true) ∧
        isSeparator c = false := by
  induction a with
  | nil => exact .inl (by simp)
  | cons x a ih =>
    cases hx : isSeparator x with
    | false => exact .inr ⟨[], x, a, rfl, by simp, hx⟩
    | true =>
      rcases ih with h | ⟨gap, c, body, rfl, hg, hc⟩
      · exact .inl (List.forall_mem_cons.2 ⟨hx, h⟩)
      · exact .inr ⟨x :: gap, c, body, rfl, List.forall_mem_cons.2 ⟨hx, hg⟩, hc⟩

/-- A text of whole tokens is read in front of `z'` as it is in front of `z`. -/
theorem streamFrom_cut {symbols : SymbolSet} (hsymbols : symbols.Proper) {z z' : List Char}
    (h : CutsAlike z z') (a : List Char) (o : Nat) (p : Position)
    (hends : (z = [] ∧ (streamFrom symbols (a ++ z) o p).failure = none) ∨
      ∃ t ∈ (streamFrom symbols (a ++ z) o p).tokens, t.span.start = o + byteSize a) :
    ∃ pre gap o' p', (∀ c ∈ gap, isSeparator c = true) ∧ o' + byteSize gap = o + byteSize a ∧
      p.row ≤ p'.row ∧
      (∀ t ∈ pre, t.span.start < o + byteSize a ∧ t.position.row ≤ p'.row) ∧
      ∀ y, y = z ∨ y = z' →
        streamFrom symbols (a ++ y) o p = (streamFrom symbols (gap ++ y) o' p').prepend pre := by
  rcases separators_or_token a with hall | ⟨gap, c, body, ha, hg, hc⟩
  · exact ⟨[], a, o, p, hall, rfl, Nat.le_refl _, by simp, fun y _ => rfl⟩
  have hstream (y : List Char) :
      streamFrom symbols (a ++ y) o p =
        streamAt symbols (o + byteSize gap) (p.walk gap) (c :: (body ++ y)) := by
    rw [ha, List.append_assoc, List.cons_append, streamFrom_gap_append hg hc]
  rw [hstream, streamAt] at hends
  cases hl : lexeme symbols (c :: (body ++ z)) with
  | error stuck =>
    rw [hl] at hends
    simp at hends
  | ok l =>
    obtain ⟨kind, text, rest⟩ := l
    simp only [hl] at hends
    have hsuffix : rest <:+ c :: body ++ z := lexeme_suffix hl
    have hsize : byteSize a = byteSize gap + byteSize (c :: body) := by rw [ha, byteSize_append]
    -- The token ends in front of `z`.
    obtain ⟨d, rfl⟩ : ∃ d, rest = d ++ z := by
      rcases hends with ⟨rfl, -⟩ | ⟨t, ht, hstart⟩
      · exact ⟨rest, by simp⟩
      · refine exists_rest_of_stop hsuffix ?_
        have hpos := byteSize_pos (List.cons_ne_nil c body)
        rcases List.mem_cons.1 ht with rfl | ht
        · simp only at hstart
          omega
        · have := streamFrom_start _ _ _ _ t ht
          rw [List.cons_append]
          omega
    have hread (y : List Char) : taken (c :: (body ++ y)) (d ++ y) = taken (c :: body) d :=
      taken_append (c :: body) d y
    have hbody : byteSize (taken (c :: body) d) + byteSize d = byteSize (c :: body) := by
      rw [← byteSize_append, taken_append_rest (List.suffix_append_self_iff.1 hsuffix)]
    have hshort : d.length < a.length := by
      have := lexeme_length hl
      simp only [List.length_append, List.length_cons] at this
      rw [ha, List.length_append, List.length_cons]
      omega
    rw [hread] at hends
    obtain ⟨pre, gap', o', p', hg', ho', hp', hpre, heq⟩ := streamFrom_cut hsymbols h d
      (o + byteSize gap + byteSize (taken (c :: body) d))
      ((p.walk gap).walk (taken (c :: body) d)) (by
        rcases hends with ⟨hz, hfailure⟩ | ⟨t, ht, hstart⟩
        · exact .inl ⟨hz, hfailure⟩
        · refine .inr ⟨t, ?_, by omega⟩
          rcases List.mem_cons.1 ht with rfl | ht
          · have hpos := byteSize_pos (List.cons_ne_nil c body)
            simp only at hstart
            omega
          · exact ht)
    have hfirst : (p.walk gap).row ≤ p'.row := (Position.row_le_walk _ _).trans hp'
    have hpos := byteSize_pos (List.cons_ne_nil c body)
    refine ⟨⟨kind, String.ofList text, ⟨o + byteSize gap,
      o + byteSize gap + byteSize (taken (c :: body) d)⟩, p.walk gap⟩ :: pre, gap', o', p', hg',
      by omega, (Position.row_le_walk _ _).trans hfirst, ?_, fun y hy => ?_⟩
    · refine List.forall_mem_cons.2 ⟨⟨by dsimp only; omega, hfirst⟩, fun t ht => ?_⟩
      exact ⟨by have := (hpre t ht).1; omega, (hpre t ht).2⟩
    · have hly : lexeme symbols (c :: (body ++ y)) = .ok ⟨kind, text, d ++ y⟩ := by
        rcases hy with rfl | rfl
        · exact hl
        · exact lexeme_cut hsymbols h (List.cons_ne_nil c body) hl
      rw [hstream, streamAt, hly]
      simp only [hread, heq y hy]
      rfl
termination_by a.length

/-- A text without a fault is read in front of separators as it is read alone, up to the separators
at its end. -/
theorem exists_tokenize_append {symbols : SymbolSet} (hsymbols : symbols.Proper) {front : String}
    (hfront : (tokenize symbols front).failure = none) {z : List Char} (h : CutsAlike [] z) :
    ∃ gap o p, (∀ c ∈ gap, isSeparator c = true) ∧ o + byteSize gap = byteSize front.toList ∧
      (∀ t ∈ (tokenize symbols front).tokens, t.position.row ≤ p.row) ∧
      streamFrom symbols (front.toList ++ z) 0 ⟨0, 0⟩ =
        (streamFrom symbols (gap ++ z) o p).prepend (tokenize symbols front).tokens := by
  obtain ⟨pre, gap, o, p, hg, ho, -, hpre, hread⟩ := streamFrom_cut hsymbols h front.toList 0
    ⟨0, 0⟩ (.inl ⟨rfl, by rw [List.append_nil]; exact hfront⟩)
  have htokens : (tokenize symbols front).tokens = pre := by
    have hend := hread [] (.inl rfl)
    rw [List.append_nil, List.append_nil, streamFrom_gap hg] at hend
    rw [tokenize, hend]
    exact List.append_nil pre
  rw [htokens]
  exact ⟨gap, o, p, hg, by omega, fun t ht => (hpre t ht).2, hread _ (.inr rfl)⟩

/-! ## Moving a text -/

/-- A token that is found somewhere else. -/
structure Moved (k : Nat) (R : Position → Position → Prop) (t t' : Token) : Prop where
  kind : t'.kind = t.kind
  text : t'.text = t.text
  start : t'.span.start = t.span.start + k
  stop : t'.span.stop = t.span.stop + k
  position : R t.position t'.position

theorem shifted_of_moved {bytes rows : Nat} {ts us : List Token}
    (h : List.Forall₂ (Moved bytes fun p p' => p' = p.down rows) ts us) :
    us = ts.map (·.shifted bytes rows) := by
  refine (List.forall₂_eq_eq_eq ▸ List.forall₂_map_left_iff.2 (h.imp fun t u hm => ?_)).symm
  obtain ⟨kind, text, ⟨start, stop⟩, position⟩ := u
  obtain ⟨rfl, rfl, rfl, rfl, rfl⟩ := hm
  rfl

/-- The tokens of a text do not change with its place, and neither does the fault. -/
theorem streamFrom_moved {R : Position → Position → Prop}
    (hR : ∀ p p' cs, R p p' → R (p.walk cs) (p'.walk cs)) (symbols : SymbolSet) (k : Nat)
    (cs : List Char) (o : Nat) {p p' : Position} (h : R p p') :
    List.Forall₂ (Moved k R) (streamFrom symbols cs o p).tokens
        (streamFrom symbols cs (o + k) p').tokens ∧
      (streamFrom symbols cs (o + k) p').failure.map Failure.report =
        (streamFrom symbols cs o p).failure.map Failure.report := by
  have hskip := hR p p' (cs.takeWhile isSeparator) h
  rw [streamFrom_eq symbols cs o, streamFrom_eq symbols cs (o + k)]
  cases hd : cs.dropWhile isSeparator with
  | nil => exact ⟨.nil, rfl⟩
  | cons c body =>
    simp only [streamAt]
    cases hl : lexeme symbols (c :: body) with
    | error stuck => exact ⟨.nil, rfl⟩
    | ok l =>
      have hshort : l.rest.length < cs.length := by
        have h1 := lexeme_length hl
        have h2 := length_dropWhile_le isSeparator cs
        rw [hd] at h2
        omega
      obtain ⟨htokens, hfailure⟩ := streamFrom_moved hR symbols k l.rest
        (o + byteSize (cs.takeWhile isSeparator) + byteSize (taken (c :: body) l.rest))
        (hR _ _ (taken (c :: body) l.rest) hskip)
      have hoffset : o + k + byteSize (cs.takeWhile isSeparator) +
          byteSize (taken (c :: body) l.rest) =
          o + byteSize (cs.takeWhile isSeparator) + byteSize (taken (c :: body) l.rest) + k := by
        omega
      simp only [hoffset]
      refine ⟨.cons ⟨rfl, rfl, ?_, rfl, hskip⟩ htokens, hfailure⟩
      show o + k + _ = o + _ + k
      omega
termination_by cs.length

/-! ## Texts on rows of their own -/

/-- A text below another one is read as it is read alone. -/
theorem tokenize_below {above : String} (h : (tokenize .document above).failure = none)
    (below : String) :
    ∃ rows, (∀ t ∈ (tokenize .document above).tokens, t.position.row < rows) ∧
      (tokenize .document (above ++ "\n" ++ below)).tokens =
        (tokenize .document above).tokens ++
          (tokenize .document below).tokens.map (·.shifted (byteSize above.toList + 1) rows) ∧
      (tokenize .document (above ++ "\n" ++ below)).failure.isNone =
        (tokenize .document below).failure.isNone := by
  have hbreak : ∀ c ∈ ['\n'], isSeparator c = true := fun c hc => by
    rw [List.mem_singleton.1 hc]
    rfl
  have htext : (above ++ "\n" ++ below).toList = above.toList ++ (['\n'] ++ below.toList) := by
    simp
  obtain ⟨gap, o, p, hg, ho, hpre, hread⟩ := exists_tokenize_append .document h
    (CutsAlike.separators (List.cons_ne_nil _ _) hbreak below.toList)
  obtain ⟨rows, hrows, hwalk⟩ := p.walk_lineFeed gap
  have hoffset : o + byteSize (gap ++ ['\n']) = 0 + (byteSize above.toList + 1) := by
    rw [byteSize_append, show byteSize ['\n'] = 1 from rfl]
    omega
  have hjoin : tokenize .document (above ++ "\n" ++ below) =
      (streamFrom .document below.toList (0 + (byteSize above.toList + 1)) ⟨rows, 0⟩).prepend
        (tokenize .document above).tokens := by
    rw [tokenize, htext, hread, ← List.append_assoc, ← hwalk, ← hoffset,
      streamFrom_skip (List.forall_mem_append.2 ⟨hg, hbreak⟩) (by simp)]
  obtain ⟨hmoved, hfailure⟩ := streamFrom_moved
    (R := fun p p' => p' = p.down rows) (fun p p' cs hp => hp ▸ p.walk_down rows cs)
    .document (byteSize above.toList + 1) below.toList 0
    (show (⟨rows, 0⟩ : Position) = Position.down rows ⟨0, 0⟩ by simp [Position.down])
  refine ⟨rows, ?_, ?_, ?_⟩
  · exact fun t ht => Nat.lt_of_le_of_lt (hpre t ht) hrows
  · rw [hjoin, tokenize, tokenize, ← shifted_of_moved hmoved]
    rfl
  · rw [hjoin]
    have := congrArg Option.isNone hfailure
    simpa [Stream.prepend, tokenize] using this

end Lexer

end MotionScript
