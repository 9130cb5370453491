import MotionScript.Proofs.Token.Pieces
/-!
# Reading pieces

The events of a written text are its pieces, one by one and in order, and reading them never
fails.
-/

namespace MotionScript

open Text

/-! ## Positions -/

theorem Position.walk_row {p : Position} {cs : List Char} (h : ∀ c ∈ cs, c ≠ '\n' ∧ c ≠ '\r') :
    (p.walk cs).row = p.row := by
  induction cs generalizing p with
  | nil => rfl
  | cons c cs ih =>
    obtain ⟨h1, h2⟩ := h c List.mem_cons_self
    have hw : p.walk (c :: cs) = (p.advance 1).walk cs := by
      rw [walk]
      · simp [h1, h2]
      · rintro rest rfl; exact absurd rfl h2
    rw [hw, ih fun d hd => h d (List.mem_cons_of_mem c hd)]
    rfl

theorem isSeparator_of_identifier {c : Char} (h : isIdentifierChar c = true) :
    isSeparator c = false := by
  by_contra hs
  have h1 : ∀ n < 33, isIdentifierChar (Char.ofNat n) = false := by decide +kernel
  have h2 : ∀ n < 34, isIdentifierChar (Char.ofNat (0x7F + n)) = false := by decide +kernel
  have h3 : ∀ n < 11, isIdentifierChar (Char.ofNat (0x2000 + n)) = false := by decide +kernel
  have h4 : ∀ n ∈ [0x1680, 0x2028, 0x2029, 0x202F, 0x205F, 0x3000],
      isIdentifierChar (Char.ofNat n) = false := by decide +kernel
  have hno : isIdentifierChar (Char.ofNat c.toNat) = false := by
    simp only [isSeparator, isWhitespace, isControl, Bool.not_eq_false, Bool.or_eq_true,
      Bool.and_eq_true, decide_eq_true_eq, beq_iff_eq] at hs
    by_cases hlow : c.toNat < 33
    · exact h1 _ hlow
    by_cases hmid : c.toNat ≤ 0xA0
    · have h := h2 (c.toNat - 0x7F) (by omega)
      rwa [Nat.add_sub_cancel' (by omega)] at h
    by_cases hspace : 0x2000 ≤ c.toNat ∧ c.toNat ≤ 0x200A
    · have h := h3 (c.toNat - 0x2000) (by omega)
      rwa [Nat.add_sub_cancel' hspace.1] at h
    · refine h4 _ ?_
      simp only [List.mem_cons, List.not_mem_nil, or_false]
      omega
  rw [Char.ofNat_toNat, h] at hno
  cases hno

theorem identifier_of_digit {c : Char} (h : c.isDigit = true) : isIdentifierChar c = true := by
  have h9 : c.toNat ≤ 57 := by
    have := (Bool.and_eq_true_iff.1 h).2
    simpa [UInt32.le_iff_toNat_le] using this
  simp [isIdentifierChar, isAlphanumeric, show c.toNat < 128 by omega, Char.isAlphanum, h]

namespace Form

/-- No form holds a line break. -/
theorem not_lineBreak {f : Form} (h : f.Valid) : ∀ c ∈ f.chars, c ≠ '\n' ∧ c ≠ '\r' := by
  intro c hc
  cases f with
  | word text =>
    have hid : isIdentifierChar c = true := Lexer.identifierChar_of_isBare h hc
    constructor <;> (rintro rfl; cases hid)
  | string text =>
    have hctl : isControl c = false := Lexer.not_control_quoted hc
    constructor <;> (rintro rfl; cases hctl)
  | number text =>
    obtain ⟨negative, p, rfl⟩ := h
    have hchars : ∀ d ∈ signedChars negative p, d = '-' ∨ d = '.' ∨ d.isDigit = true := by
      intro d hd
      have hp : d ∈ p.chars → d = '.' ∨ d.isDigit = true := by
        intro hd
        rcases List.mem_append.1 hd with hd | hd
        · exact .inr (p.digits d (List.mem_append_left _ hd))
        · split at hd
          · cases hd
          · rcases List.mem_cons.1 hd with rfl | hd
            · exact .inl rfl
            · exact .inr (p.digits d (List.mem_append_right _ hd))
      cases negative with
      | true => exact (List.mem_cons.1 hd).imp_right hp
      | false => exact .inr (hp hd)
    rcases hchars c hc with rfl | rfl | hd
    · decide
    · decide
    · constructor <;> (rintro rfl; cases hd)
  | symbol d =>
    obtain rfl := List.mem_singleton.1 hc
    exact ⟨symbol_ne h rfl, symbol_ne h rfl⟩

/-- No form starts with a separator. -/
theorem not_separator {f : Form} (h : f.Valid) : ∀ c ∈ f.chars.head?, isSeparator c = false := by
  intro c hc
  cases f with
  | word text => exact isSeparator_of_identifier (word_head h hc).1
  | string text => rcases string_head hc with rfl | rfl <;> rfl
  | number text =>
    obtain ⟨negative, p, rfl⟩ := h
    cases negative with
    | true =>
      obtain rfl : '-' = c := by simpa [chars, signedChars] using hc
      rfl
    | false =>
      obtain ⟨d, ds, hp, hd, -⟩ := p.chars_head
      obtain rfl : d = c := by simpa [chars, signedChars, hp] using hc
      exact isSeparator_of_identifier (identifier_of_digit hd)
  | symbol d =>
    obtain rfl : d = c := by simpa [chars] using hc
    have hall : (['<', '=', '>', '+', '-', '*', ',', '.', '&', '|', '!', '(', ')', '[', ']',
        ':', ';', '{', '}', '/'].all fun c => !isSeparator c) = true := by decide +kernel
    have hm : d ∈ ['<', '=', '>', '+', '-', '*', ',', '.', '&', '|', '!', '(', ')', '[', ']', ':',
        ';', '{', '}', '/'] := by
      simpa [Valid, SymbolSet.document, SymbolSet.contains] using h
    simpa using List.all_eq_true.1 hall d hm

end Form

/-! ## Streams -/

theorem IsGap.separators {gap : List Char} (h : IsGap gap) : ∀ c ∈ gap, isSeparator c = true := by
  intro c hc
  rcases h c hc with rfl | rfl <;> rfl

namespace Lexer

theorem takeWhile_gap {gap : List Char} (hg : ∀ c ∈ gap, isSeparator c = true) (cs : List Char)
    (hc : ∀ c ∈ cs.head?, isSeparator c = false) :
    (gap ++ cs).takeWhile isSeparator = gap ∧ (gap ++ cs).dropWhile isSeparator = cs := by
  rw [List.takeWhile_append_of_pos hg, List.dropWhile_append_of_pos hg]
  cases cs with
  | nil => simp
  | cons c cs => simp [hc c rfl]

/-- A text of separators has no tokens. -/
theorem streamFrom_gap {symbols : SymbolSet} {gap : List Char}
    (hg : ∀ c ∈ gap, isSeparator c = true) (o : Nat) (p : Position) :
    streamFrom symbols gap o p = ⟨[], none⟩ := by
  have hd := (takeWhile_gap hg [] (by simp)).2
  rw [List.append_nil] at hd
  rw [streamFrom]
  split
  · rfl
  · rename_i h
    rw [hd] at h
    cases h

/-- The first token of a text behind a gap. -/
theorem streamFrom_lexeme {symbols : SymbolSet} {gap : List Char} {c : Char} {cs : List Char}
    {l : Lexeme} (hg : ∀ c ∈ gap, isSeparator c = true) (hc : isSeparator c = false)
    (hl : lexeme symbols (c :: cs) = .ok l) (o : Nat) (p : Position) :
    streamFrom symbols (gap ++ c :: cs) o p =
      let start := o + byteSize gap
      let read := taken (c :: cs) l.rest
      let tail := streamFrom symbols l.rest (start + byteSize read) ((p.walk gap).walk read)
      ⟨⟨l.kind, String.ofList l.text, ⟨start, start + byteSize read⟩, p.walk gap⟩ :: tail.tokens,
        tail.failure⟩ := by
  obtain ⟨ht, hd⟩ := takeWhile_gap hg (c :: cs) fun d hd => by cases hd; exact hc
  rw [streamFrom]
  simp only [ht]
  split
  · rename_i h
    rw [hd] at h
    cases h
  · rename_i d body h
    rw [hd] at h
    cases h
    split
    · rename_i hl'
      rw [hl] at hl'
      cases hl'
    · rename_i hl'
      rw [hl] at hl'
      cases hl'
      rfl

end Lexer

/-! ## Events -/

/-- Whether an event is an atom that has been read. -/
structure Atom.Reads (e : Event) (a : Atom) : Prop where
  kind : a.2.HasKind e.kind
  text : e.text.toList = a.2.text
  /-- An atom behind a space does not start a line. -/
  sameLine : a.1 = [' '] → e.lineBreak = false

namespace Event

/-- A run of symbols is split into its symbols. -/
theorem splitRun_symbols {run : List Char} (h : run ≠ []) (o : Nat) (p : Position) :
    splitRun ⟨.symbol, String.ofList run, ⟨o, o + byteSize run⟩, p⟩ = symbolsOf run o p := by
  unfold splitRun
  cases run with
  | nil => exact absurd rfl h
  | cons c cs =>
    cases cs with
    | nil => simp [symbolsOf, byteSize, Char.toString]
    | cons d ds => simp

theorem splitRun_single {f : Form} {kind : TokenKind} (hk : f.HasKind kind) (span : Span)
    (p : Position) :
    splitRun ⟨kind, String.ofList f.text, span, p⟩ = [⟨kind, String.ofList f.text, span, p⟩] := by
  have hsplit : (kind == .symbol && decide (1 < f.text.length)) = false := by
    cases f with
    | string text => cases kind <;> first | rfl | cases hk
    | word | number => rw [show kind = _ from hk]; rfl
    | symbol c => simp [Form.text]
  simp [splitRun, hsplit]

/-- An event without its indentation, which is not part of what is read. -/
def unindented (e : Event) : Event := { e with indent := 0 }

theorem reads_unindented {es es' : List Event} {atoms : List Atom}
    (he : es.map unindented = es'.map unindented) (h : List.Forall₂ Atom.Reads es atoms) :
    List.Forall₂ Atom.Reads es' atoms := by
  have hmap {l : List Event} : List.Forall₂ Atom.Reads (l.map unindented) atoms ↔
      List.Forall₂ Atom.Reads l atoms := by
    rw [List.forall₂_map_left_iff]
    exact ⟨fun h => h.imp fun _ _ r => ⟨r.kind, r.text, r.sameLine⟩,
      fun h => h.imp fun _ _ r => ⟨r.kind, r.text, r.sameLine⟩⟩
  rw [← hmap, ← he, hmap]
  exact h

theorem map_unindented (row : Option Nat) (i j : Nat) (tokens : List Token) :
    (ofTokensFrom row i tokens).map unindented = (ofTokensFrom row j tokens).map unindented := by
  induction tokens generalizing row i j with
  | nil => rfl
  | cons t rest ih =>
    simp only [ofTokensFrom, List.map_append, List.map_map]
    rw [ih]
    congr 1

end Event

/-! ## Texts -/

namespace Spelled

variable {tail : List Char} {gap : List Char} {f : Form} {rest : List Atom}

/-- The first atom that does not belong to a longer run of symbols is the first token. -/
theorem lexeme (h : Spelled ((gap, f) :: rest)) (ht : IsGap tail)
    (hrun : ∀ c d more, f = .symbol c → rest ≠ ([], .symbol d) :: more) :
    ∃ kind, f.HasKind kind ∧
      Lexer.lexeme .document (f.chars ++ spell tail rest) =
        .ok ⟨kind, f.text, spell tail rest⟩ := by
  cases f with
  | word text =>
    exact ⟨.identifier, rfl, Lexer.lexeme_bare (h.valid (gap, .word text) (by simp))
      (h.endsName ht)⟩
  | string text => exact Lexer.lexeme_quoted .document text.toList (spell tail rest)
  | number text =>
    obtain ⟨negative, p, rfl⟩ := h.valid (gap, .number text) (by simp)
    exact ⟨.number, rfl, Lexer.lexeme_number negative p (h.endsNumber ht)⟩
  | symbol c =>
    refine ⟨.symbol, rfl, ?_⟩
    have hc := h.valid (gap, .symbol c) (by simp)
    have hend := h.endsRun ht fun d more => hrun c d more rfl
    simp only [Form.chars, Form.text, List.singleton_append]
    rw [Lexer.lexeme_symbol hc (h.not_startsNumber ht), hend]
    simp [Lexer.taken]

/-- A symbol in front of another one is read in one run with it. -/
theorem lexeme_run {c d : Char} (h : Spelled ((gap, .symbol c) :: ([], .symbol d) :: rest))
    (ht : IsGap tail) :
    ∃ run, run ≠ [] ∧ Lexer.lexeme .document (d :: spell tail rest) =
        .ok ⟨.symbol, run, Lexer.afterSymbols .document (spell tail rest)⟩ ∧
      Lexer.lexeme .document (c :: d :: spell tail rest) =
        .ok ⟨.symbol, c :: run, Lexer.afterSymbols .document (spell tail rest)⟩ ∧
      Lexer.taken (d :: spell tail rest) (Lexer.afterSymbols .document (spell tail rest)) = run ∧
      Lexer.taken (c :: d :: spell tail rest) (Lexer.afterSymbols .document (spell tail rest)) =
        c :: run := by
  have hc := h.valid (gap, .symbol c) (by simp)
  have hd := h.valid ([], .symbol d) (by simp)
  have hnc : Lexer.startsNumber (c :: d :: spell tail rest) = false := h.not_startsNumber ht
  have hnd := h.tail.not_startsNumber ht
  have hafter : Lexer.afterSymbols .document (d :: spell tail rest) =
      Lexer.afterSymbols .document (spell tail rest) := by
    have hd' : SymbolSet.document.contains d = true := hd
    rw [Lexer.afterSymbols, if_neg (by simp [hnd, hd'])]
  have hlen := Lexer.afterSymbols_length .document (spell tail rest)
  have hrun : Lexer.taken (d :: spell tail rest)
      (Lexer.afterSymbols .document (spell tail rest)) = d :: Lexer.taken (spell tail rest)
        (Lexer.afterSymbols .document (spell tail rest)) := by
    rw [Lexer.taken, Lexer.taken, List.length_cons, Nat.sub_add_comm hlen, List.take_succ_cons]
  have htaken : Lexer.taken (c :: d :: spell tail rest)
      (Lexer.afterSymbols .document (spell tail rest)) = c :: Lexer.taken (d :: spell tail rest)
        (Lexer.afterSymbols .document (spell tail rest)) := by
    rw [Lexer.taken, Lexer.taken, List.length_cons (a := c), List.length_cons,
      Nat.sub_add_comm (Nat.le_succ_of_le hlen), List.take_succ_cons]
  refine ⟨_, ?_, Lexer.lexeme_symbol hd hnd, ?_, rfl, htaken⟩
  · rw [hrun]; exact List.cons_ne_nil _ _
  · rw [Lexer.lexeme_symbol hc hnc, hafter, htaken]

end Spelled

/-- Whether a text that starts somewhere, behind a token of a row, is read as its atoms. -/
def ReadAt (tail : List Char) (atoms : List Atom) (o : Nat) (p : Position) (row : Option Nat)
    (indent : Nat) : Prop :=
  (Lexer.streamFrom .document (spell tail atoms) o p).failure = none ∧
    List.Forall₂ Atom.Reads (Event.ofTokensFrom row indent
      (Lexer.streamFrom .document (spell tail atoms) o p).tokens) atoms

namespace Spelled

variable {tail gap : List Char} {rest : List Atom} {o indent : Nat} {p : Position} {row : Option Nat}

/-- A symbol in front of a symbol: they are of one token, which is split into both. -/
theorem read_run (ht : IsGap tail) {c d : Char}
    (h : Spelled ((gap, .symbol c) :: ([], .symbol d) :: rest))
    (hline : gap = [' '] → (row.all fun r => decide (r < (p.walk gap).row)) = false)
    (hread : ReadAt tail (([], .symbol d) :: rest) (o + byteSize gap + c.utf8Size)
      ((p.walk gap).advance 1) row
      (if row.all (· < (p.walk gap).row) then (p.walk gap).column else indent)) :
    ReadAt tail ((gap, .symbol c) :: ([], .symbol d) :: rest) o p row indent := by
  obtain ⟨hfail, hreads⟩ := hread
  obtain ⟨run, hne, hld, hlc, htd, htc⟩ := h.lexeme_run ht
  have hg : IsGap gap := h.gaps (gap, .symbol c) (by simp)
  have hc : (Form.symbol c).Valid := h.valid (gap, .symbol c) (by simp)
  have hsc := Form.not_separator hc c rfl
  have hsd := Form.not_separator (h.tail.valid ([], .symbol d) (by simp)) d rfl
  have hwalk : (p.walk gap).walk (c :: run) = ((p.walk gap).advance 1).walk run := by
    obtain ⟨h1, h2⟩ := Form.not_lineBreak hc c (by simp [Form.chars])
    rw [Position.walk]
    · simp [h1, h2]
    · rintro rest rfl; exact absurd rfl h2
  have hsize : o + byteSize gap + byteSize (c :: run) =
      o + byteSize gap + c.utf8Size + byteSize run := by
    simp [byteSize, Nat.add_assoc]
  have hS := Lexer.streamFrom_lexeme hg.separators hsc hlc o p
  have hS' := Lexer.streamFrom_lexeme isGap_nil.separators hsd hld
    (o + byteSize gap + c.utf8Size) ((p.walk gap).advance 1)
  simp only [htc, htd, Position.walk, List.nil_append, show byteSize [] = 0 from rfl,
    Nat.add_zero] at hS hS'
  simp only [ReadAt, spell, Form.chars, List.nil_append, List.singleton_append] at hfail hreads ⊢
  rw [hS'] at hfail hreads
  rw [hS, hwalk, hsize]
  refine ⟨hfail, ?_⟩
  simp only [Event.ofTokensFrom] at hreads ⊢
  have hstop : o + byteSize gap + c.utf8Size + byteSize run =
      o + byteSize gap + byteSize (c :: run) := hsize.symm
  rw [Event.splitRun_symbols hne] at hreads
  rw [hstop, Event.splitRun_symbols (List.cons_ne_nil c run)]
  simp only [Event.symbolsOf, List.map_cons, List.cons_append]
  refine .cons ⟨rfl, by simp [Form.text], hline⟩ (Event.reads_unindented ?_ hreads)
  simp only [List.map_append, List.map_map]
  refine congrArg₂ (· ++ ·) rfl ?_
  rw [hstop]
  exact Event.map_unindented _ _ _ _

/-- An atom that is a token of its own. -/
theorem read_token (ht : IsGap tail) {f : Form} (h : Spelled ((gap, f) :: rest))
    (hrun : ∀ c d more, f = .symbol c → rest ≠ ([], .symbol d) :: more)
    (hline : gap = [' '] → (row.all fun r => decide (r < (p.walk gap).row)) = false)
    (hread : ReadAt tail rest (o + byteSize gap + byteSize f.chars) ((p.walk gap).walk f.chars)
      (some (p.walk gap).row)
      (if row.all (· < (p.walk gap).row) then (p.walk gap).column else indent)) :
    ReadAt tail ((gap, f) :: rest) o p row indent := by
  obtain ⟨hfail, hreads⟩ := hread
  have hg : IsGap gap := h.gaps (gap, f) (by simp)
  have hf : f.Valid := h.valid (gap, f) (by simp)
  obtain ⟨kind, hkind, hl⟩ := h.lexeme ht hrun
  obtain ⟨c, cs, hchars⟩ := List.exists_cons_of_ne_nil (f.chars_ne_nil hf)
  have hsep := Form.not_separator hf c (by rw [hchars]; rfl)
  rw [hchars, List.cons_append] at hl
  have htaken : Lexer.taken (c :: (cs ++ spell tail rest)) (spell tail rest) = f.chars := by
    rw [← List.cons_append, ← hchars]
    simp [Lexer.taken]
  have hstream := Lexer.streamFrom_lexeme hg.separators hsep hl o p
  simp only [htaken] at hstream
  rw [ReadAt, spell, hchars, List.cons_append, hstream]
  refine ⟨hfail, ?_⟩
  simp only [Event.ofTokensFrom, Event.splitRun_single hkind, List.map_cons, List.map_nil,
    List.singleton_append]
  exact .cons ⟨hkind, by simp, hline⟩ hreads

/-- The events of a written text are its atoms. -/
theorem reads (ht : IsGap tail) {atoms : List Atom} (h : Spelled atoms) (o : Nat) (p : Position)
    (row : Option Nat) (indent : Nat)
    (hrow : row = some p.row ∨ ∀ a ∈ atoms.head?, a.1 ≠ [' ']) :
    ReadAt tail atoms o p row indent := by
  induction atoms generalizing o p row indent with
  | nil =>
    rw [ReadAt, spell, Lexer.streamFrom_gap ht.separators]
    exact ⟨rfl, .nil⟩
  | cons a rest ih =>
    obtain ⟨gap, f⟩ := a
    -- A space in front of the atom leaves it on its line.
    have hline : gap = [' '] → (row.all fun r => decide (r < (p.walk gap).row)) = false := by
      rintro rfl
      rcases hrow with rfl | hrow
      · simp [Position.walk, Position.advance]
      · exact absurd rfl (hrow _ rfl)
    by_cases hrun : ∃ c d more, f = .symbol c ∧ rest = ([], .symbol d) :: more
    · obtain ⟨c, d, more, rfl, rfl⟩ := hrun
      exact h.read_run ht hline (ih h.tail _ _ _ _ (.inr fun a ha => by cases ha; simp))
    · have hstays := Position.walk_row (p := p.walk gap)
        (Form.not_lineBreak (h.valid (gap, f) (by simp)))
      exact h.read_token ht (fun c d more hf hrest => hrun ⟨c, d, more, hf, hrest⟩) hline
        (ih h.tail _ _ _ _ (.inl (by rw [hstays])))

end Spelled

end MotionScript
