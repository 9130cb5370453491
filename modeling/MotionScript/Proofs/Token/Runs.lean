import MotionScript.Proofs.Token.Places
/-!
# Spaces in runs of symbols

A run of symbols can be parted by a space. It is read as two runs then, and all that is written
behind it is read as before.
-/

namespace MotionScript

open Text

theorem append_inj_of_byteSize {a b c d : List Char} (h : a ++ b = c ++ d)
    (hsize : byteSize a = byteSize c) : a = c ∧ b = d := by
  have nothing {xs : List Char} (hx : byteSize xs = 0) : xs = [] := by
    by_contra hne
    have := byteSize_pos hne
    omega
  rcases List.append_eq_append_iff.1 h with ⟨xs, rfl, rfl⟩ | ⟨xs, rfl, rfl⟩
  · obtain rfl : xs = [] := nothing (by rw [byteSize_append] at hsize; omega)
    simp
  · obtain rfl : xs = [] := nothing (by rw [byteSize_append] at hsize; omega)
    simp

namespace Lexer

/-! ## Runs -/

/-- Whether the symbols `run` in front of `z` are read as one token. -/
structure IsRun (run z : List Char) : Prop where
  ne_nil : run ≠ []
  symbols : ∀ c ∈ run, SymbolSet.document.contains c = true
  noNumber : ∀ s, s <:+ run → s ≠ [] → startsNumber (s ++ z) = false
  ends : afterSymbols .document z = z

theorem afterSymbols_idem (symbols : SymbolSet) (cs : List Char) :
    afterSymbols symbols (afterSymbols symbols cs) = afterSymbols symbols cs := by
  induction cs with
  | nil => rfl
  | cons c cs ih =>
    by_cases hc : (!symbols.contains c || startsNumber (c :: cs)) = true
    · simp only [afterSymbols, if_pos hc]
    · simp only [afterSymbols, if_neg hc, ih]

theorem afterSymbols_run {symbols : SymbolSet} {r z : List Char}
    (h : afterSymbols symbols (r ++ z) = z) :
    (∀ c ∈ r, symbols.contains c = true) ∧
      ∀ s, s <:+ r → s ≠ [] → startsNumber (s ++ z) = false := by
  induction r with
  | nil => exact ⟨by simp, fun s hs hne => absurd (List.suffix_nil.1 hs) hne⟩
  | cons c r ih =>
    rw [List.cons_append, afterSymbols] at h
    split at h
    · have := congrArg List.length h
      simp at this
      omega
    · rename_i hc
      simp only [Bool.or_eq_true, Bool.not_eq_true', not_or, Bool.not_eq_false,
        Bool.not_eq_true] at hc
      obtain ⟨hsym, hnum⟩ := ih h
      refine ⟨List.forall_mem_cons.2 ⟨hc.1, hsym⟩, fun s hs hne => ?_⟩
      rcases List.suffix_cons_iff.1 hs with rfl | hs
      · exact hc.2
      · exact hnum s hs hne

theorem afterSymbols_append {symbols : SymbolSet} {r z : List Char}
    (hsym : ∀ c ∈ r, symbols.contains c = true)
    (hnum : ∀ s, s <:+ r → s ≠ [] → startsNumber (s ++ z) = false) :
    afterSymbols symbols (r ++ z) = afterSymbols symbols z := by
  induction r with
  | nil => rfl
  | cons c r ih =>
    have hc := hsym c List.mem_cons_self
    have hn := hnum (c :: r) List.suffix_rfl (List.cons_ne_nil c r)
    rw [List.cons_append] at hn ⊢
    rw [afterSymbols, hc, hn, if_neg (by simp)]
    exact ih (fun d hd => hsym d (List.mem_cons_of_mem _ hd))
      fun s hs => hnum s (hs.trans (List.suffix_cons c r))

theorem lexeme_eq_symbol {cs run z : List Char} :
    lexeme .document cs = .ok ⟨.symbol, run, z⟩ ↔ cs = run ++ z ∧ IsRun run z := by
  constructor
  · intro h
    have hsuffix : z <:+ cs := lexeme_suffix h
    cases cs with
    | nil => cases h
    | cons c cs =>
      rw [lexeme] at h
      split at h
      · cases (decoded_eq_ok.1 h).1
      split at h
      · cases (decoded_eq_ok.1 h).1
      split at h
      · cases hr : afterNumber (c :: cs) with
        | error stuck => rw [hr] at h; cases h
        | ok rest => rw [hr] at h; cases h
      rename_i hn
      split at h
      · rename_i hc
        simp only [Except.ok.injEq, Lexeme.mk.injEq, true_and] at h
        obtain ⟨hrun, hz⟩ := h
        obtain ⟨r, hr⟩ := hz ▸ afterSymbols_suffix SymbolSet.document cs
        obtain rfl : run = c :: r := by
          have hcs : run ++ z = (c :: r) ++ z := by
            rw [← hrun, hz, taken_append_rest hsuffix, List.cons_append, hr]
          exact List.append_cancel_right hcs
        obtain ⟨hsym, hnum⟩ := afterSymbols_run (hr.symm ▸ hz)
        refine ⟨by rw [List.cons_append, hr], List.cons_ne_nil c r,
          List.forall_mem_cons.2 ⟨hc, hsym⟩, fun s hs hne => ?_, ?_⟩
        · rcases List.suffix_cons_iff.1 hs with rfl | hs
          · rw [List.cons_append, hr]
            exact Bool.not_eq_true _ ▸ hn
          · exact hnum s hs hne
        · rw [← hz, afterSymbols_idem]
      · cases (decoded_eq_ok.1 h).1
  · rintro ⟨rfl, h⟩
    obtain ⟨c, r, rfl⟩ := List.exists_cons_of_ne_nil h.ne_nil
    have hrest : afterSymbols .document (r ++ z) = z := by
      rw [afterSymbols_append (fun d hd => h.symbols d (List.mem_cons_of_mem _ hd)) fun s hs =>
        h.noNumber s (hs.trans (List.suffix_cons c r)), h.ends]
    have hn := h.noNumber (c :: r) List.suffix_rfl (List.cons_ne_nil c r)
    rw [List.cons_append] at hn ⊢
    rw [lexeme_symbol (h.symbols c List.mem_cons_self) hn, hrest]
    have htaken := taken_append (c :: r) [] z
    rw [List.nil_append, List.cons_append] at htaken
    rw [htaken]
    simp [taken]

theorem startsNumber_symbols {r : List Char}
    (h : ∀ c ∈ r, SymbolSet.document.contains c = true) : startsNumber r = false := by
  have hdigit {r : List Char} (h : ∀ c ∈ r, SymbolSet.document.contains c = true) :
      startsDigit r = false := by
    cases r with
    | nil => rfl
    | cons c r => exact (Form.symbol_not_digit (h c List.mem_cons_self)).1
  have hunsigned {r : List Char} (h : ∀ c ∈ r, SymbolSet.document.contains c = true) :
      startsUnsigned r = false := by
    unfold startsUnsigned
    split
    · exact hdigit fun c hc => h c (List.mem_cons_of_mem _ hc)
    · exact hdigit h
  unfold startsNumber
  split
  · exact hunsigned fun c hc => h c (List.mem_cons_of_mem _ hc)
  · exact hunsigned fun c hc => h c (List.mem_cons_of_mem _ hc)
  · exact hunsigned h

namespace IsRun

variable {r s z : List Char}

/-- In front of a space, any symbols are a run. -/
theorem spaced (hr : r ≠ []) (h : ∀ c ∈ r, SymbolSet.document.contains c = true) (z : List Char) :
    IsRun r (' ' :: z) where
  ne_nil := hr
  symbols := h
  noNumber s hs _ := by
    rw [startsNumber_cut (.separator rfl z)]
    exact startsNumber_symbols fun c hc => h c (hs.subset hc)
  ends := rfl

theorem left (h : IsRun (r ++ s) z) (hr : r ≠ []) (w : List Char) : IsRun r (' ' :: w) :=
  spaced hr (fun c hc => h.symbols c (List.mem_append_left _ hc)) w

theorem right (h : IsRun (r ++ s) z) (hs : s ≠ []) : IsRun s z where
  ne_nil := hs
  symbols c hc := h.symbols c (List.mem_append_right _ hc)
  noNumber t ht := h.noNumber t (ht.trans (List.suffix_append r s))
  ends := h.ends

theorem cuts (h : IsRun r z) : Cuts (r ++ z) where
  noNumber := h.noNumber r List.suffix_rfl h.ne_nil
  noWord c hc := by
    obtain ⟨d, r, rfl⟩ := List.exists_cons_of_ne_nil h.ne_nil
    cases hc
    have hd := h.symbols c List.mem_cons_self
    exact ⟨Form.symbol_not_identifier hd, Form.symbol_ne hd rfl⟩

theorem not_separator (h : IsRun r z) : ∀ c ∈ r, isSeparator c = false := fun c hc =>
  Form.not_separator (f := .symbol c) (h.symbols c hc) c rfl

theorem walk_row (h : IsRun r z) (p : Position) : (p.walk r).row = p.row :=
  Position.walk_row fun c hc =>
    Form.not_lineBreak (f := .symbol c) (h.symbols c hc) c (List.mem_singleton_self c)

/-- The tokens of a text that starts with a run. -/
theorem stream (h : IsRun r z) {gap : List Char} (hg : ∀ c ∈ gap, isSeparator c = true) (o : Nat)
    (p : Position) :
    streamFrom .document (gap ++ (r ++ z)) o p =
      (streamFrom .document z (o + byteSize gap + byteSize r) ((p.walk gap).walk r)).prepend
        [⟨.symbol, String.ofList r, ⟨o + byteSize gap, o + byteSize gap + byteSize r⟩,
          p.walk gap⟩] := by
  have hl := lexeme_eq_symbol.2 ⟨rfl, h⟩
  obtain ⟨c, r, rfl⟩ := List.exists_cons_of_ne_nil h.ne_nil
  have htaken := taken_append (c :: r) [] z
  rw [List.nil_append, List.cons_append] at htaken
  have hread : taken (c :: r) [] = c :: r := by simp [taken]
  rw [List.cons_append] at hl ⊢
  rw [streamFrom_gap_append hg (h.not_separator c List.mem_cons_self), streamAt, hl]
  simp only [htaken, hread]

end IsRun

/-! ## Tokens of a text -/

/-- Every token is read where it starts. -/
theorem exists_lexeme {symbols : SymbolSet} {cs : List Char} {o : Nat} {p : Position} {t : Token}
    (h : t ∈ (streamFrom symbols cs o p).tokens) :
    ∃ front body rest, cs = front ++ body ∧ t.span.start = o + byteSize front ∧
      lexeme symbols body = .ok ⟨t.kind, t.text.toList, rest⟩ := by
  fun_induction streamFrom symbols cs o p with
  | case1 => cases h
  | case2 => cases h
  | case3 cs o p skipped start p' c body hd l hl read stop tail ih =>
    have hcs : skipped ++ c :: body = cs := hd ▸ List.takeWhile_append_dropWhile
    rcases List.mem_cons.1 h with rfl | h
    · exact ⟨skipped, c :: body, l.rest, hcs.symm, rfl, by simp [hl]⟩
    · obtain ⟨front, body', rest, hrest, hstart, hlexeme⟩ := ih h
      have hread : read ++ l.rest = c :: body := taken_append_rest (lexeme_suffix hl)
      refine ⟨skipped ++ read ++ front, body', rest, ?_, ?_, hlexeme⟩
      · rw [← hcs, ← hread, hrest]
        simp
      · rw [hstart, byteSize_append, byteSize_append]
        omega

theorem streamFrom_rows (symbols : SymbolSet) (cs : List Char) (o : Nat) (p : Position) :
    (streamFrom symbols cs o p).tokens.Pairwise fun t u => t.position.row ≤ u.position.row := by
  fun_induction streamFrom symbols cs o p with
  | case1 => exact .nil
  | case2 => exact .nil
  | case3 =>
    rename_i ih
    refine .cons (fun u hu => ?_) ih
    exact (Position.row_le_walk _ _).trans (streamFrom_row _ _ _ _ u hu)

/-- A token that starts where another one is read is that token: those in front start earlier,
those behind later. -/
theorem eq_of_start {symbols : SymbolSet} {earlier : List Token} {t u : Token} {cs : List Char}
    {o : Nat} {p : Position} (he : ∀ x ∈ earlier, x.span.start < u.span.start)
    (ho : u.span.start < o) (ht : t ∈ earlier ++ u :: (streamFrom symbols cs o p).tokens)
    (hstart : t.span.start = u.span.start) : t = u := by
  rcases List.mem_append.1 ht with ht | ht
  · exact absurd hstart (Nat.ne_of_lt (he t ht))
  · rcases List.mem_cons.1 ht with rfl | ht
    · rfl
    · have hlater := streamFrom_start _ _ _ _ t ht
      omega

end Lexer

/-! ## Places inside runs -/

/-- A place between two symbols of a run in a document. -/
structure RunPlace where
  /-- What is written in front of the run. -/
  front : List Char
  left : List Char
  right : List Char
  /-- What is written behind the run. -/
  rest : List Char
  run : Token
  left_ne_nil : left ≠ []
  right_ne_nil : right ≠ []
  mem : run ∈ (Lexer.tokenize .document (String.ofList (front ++ (left ++ right ++ rest)))).tokens
  isSymbol : run.kind = .symbol
  text : run.text.toList = left ++ right
  start : run.span.start = byteSize front

namespace RunPlace

variable (w : RunPlace)

def source : String := String.ofList (w.front ++ (w.left ++ w.right ++ w.rest))

/-- The document with a space at the place. -/
def spaced : String := String.ofList (w.front ++ (w.left ++ ' ' :: (w.right ++ w.rest)))

/-- Whether the run is the first token of its line. -/
def StartsLine : Prop :=
  ∀ t ∈ (Lexer.tokenize .document w.source).tokens,
    t.span.start < w.run.span.start → t.position.row < w.run.position.row

theorem isRun : Lexer.IsRun (w.left ++ w.right) w.rest := by
  obtain ⟨front, body, rest, heq, hstart, hlexeme⟩ := Lexer.exists_lexeme w.mem
  rw [String.toList_ofList] at heq
  obtain ⟨-, hbody⟩ := append_inj_of_byteSize heq (by rw [← w.start, hstart, Nat.zero_add])
  rw [← hbody, w.isSymbol, w.text] at hlexeme
  obtain ⟨hrest, hrun⟩ := Lexer.lexeme_eq_symbol.1 hlexeme
  exact List.append_cancel_left hrest ▸ hrun

/-- Whether a token behind the run is on its line, or stays where it is. -/
def Stays (row : Nat) (p p' : Position) : Prop :=
  p' = p ∧ row < p.row ∨ p.row = row ∧ p'.row = row

theorem Stays.walk {row : Nat} {p p' : Position} (cs : List Char) (h : Stays row p p') :
    Stays row (p.walk cs) (p'.walk cs) := by
  rcases h with ⟨rfl, hlt⟩ | ⟨hp, hp'⟩
  · exact .inl ⟨rfl, Nat.lt_of_lt_of_le hlt (Position.row_le_walk _ _)⟩
  · fun_induction Position.walk p cs generalizing p' with
    | case1 => exact .inr ⟨hp, hp'⟩
    | case2 p rest ih =>
      rw [Position.walk, hp, hp']
      exact .inl ⟨rfl, Nat.lt_of_succ_le (Position.row_le_walk ⟨row + 1, 0⟩ rest)⟩
    | case3 p c rest hcr ih =>
      rw [Position.walk_cons (Position.head_of_not_crlf hcr)]
      by_cases hc : c = '\n' ∨ c = '\r'
      · rw [if_pos hc, if_pos hc, hp, hp']
        exact .inl ⟨rfl, Nat.lt_of_succ_le (Position.row_le_walk ⟨row + 1, 0⟩ rest)⟩
      · rw [if_neg hc] at ih ⊢
        rw [if_neg hc]
        exact ih hp hp'

/-- A space parts the run and nothing else. -/
theorem tokens :
    ∃ earlier later later' span span' position,
      (Lexer.tokenize .document w.source).tokens = earlier ++ w.run :: later ∧
      (Lexer.tokenize .document w.spaced).tokens =
        earlier ++ ⟨.symbol, String.ofList w.left, span, w.run.position⟩ ::
          ⟨.symbol, String.ofList w.right, span', position⟩ :: later' ∧
      position.row = w.run.position.row ∧
      (∀ t ∈ later, w.run.span.start ≤ t.span.start) ∧
      List.Forall₂ (Lexer.Moved 1 (Stays w.run.position.row)) later later' ∧
      (Lexer.tokenize .document w.spaced).failure.map Failure.report =
        (Lexer.tokenize .document w.source).failure.map Failure.report := by
  have hrun := w.isRun
  have hleft := hrun.left w.left_ne_nil (w.right ++ w.rest)
  have hcuts : Lexer.CutsAlike (w.left ++ w.right ++ w.rest)
      (w.left ++ ' ' :: (w.right ++ w.rest)) := by
    refine ⟨hrun.cuts, hleft.cuts, fun c hc _ => ?_⟩
    obtain ⟨d, left, hd⟩ := List.exists_cons_of_ne_nil w.left_ne_nil
    rw [hd] at hc ⊢
    exact hc
  have hmem := w.mem
  rw [Lexer.tokenize, String.toList_ofList] at hmem
  obtain ⟨earlier, gap, o, p, hg, ho, -, hearlier, hread⟩ :=
    Lexer.streamFrom_cut .document hcuts w.front 0 ⟨0, 0⟩
      (.inr ⟨w.run, hmem, by rw [w.start, Nat.zero_add]⟩)
  rw [Nat.zero_add] at ho hearlier
  have hspace : ∀ c ∈ [' '], isSeparator c = true := fun c hc => by
    rw [List.mem_singleton.1 hc]
    rfl
  have hsource := hread _ (.inl rfl)
  have hspaced := hread _ (.inr rfl)
  rw [hrun.stream hg, ho] at hsource
  rw [hleft.stream hg, ho] at hspaced
  have hright := (hrun.right w.right_ne_nil).stream hspace (byteSize w.front + byteSize w.left)
    ((p.walk gap).walk w.left)
  rw [List.singleton_append] at hright
  rw [hright] at hspaced
  have hw : w.run = ⟨.symbol, String.ofList (w.left ++ w.right), ⟨byteSize w.front,
      byteSize w.front + byteSize (w.left ++ w.right)⟩, p.walk gap⟩ := by
    rw [hsource] at hmem
    exact Lexer.eq_of_start (fun t ht => (hearlier t ht).1)
      (Nat.lt_add_of_pos_right (byteSize_pos hrun.ne_nil)) hmem w.start
  have hposition : p.walk gap = w.run.position := by rw [hw]
  rw [hposition] at hsource hspaced hw
  have hrow : ((w.run.position.walk w.left).walk [' ']).row = w.run.position.row := by
    rw [Position.walk_row (by simp), hleft.walk_row]
  have hstays : Stays w.run.position.row (w.run.position.walk (w.left ++ w.right))
      (((w.run.position.walk w.left).walk [' ']).walk w.right) := by
    refine .inr ⟨hrun.walk_row _, ?_⟩
    rw [(hrun.right w.right_ne_nil).walk_row, hrow]
  obtain ⟨hmoved, hfailure⟩ := Lexer.streamFrom_moved (fun _ _ cs h => h.walk cs) .document 1
    w.rest (byteSize w.front + byteSize (w.left ++ w.right)) hstays
  have hoffset : byteSize w.front + byteSize w.left + byteSize [' '] + byteSize w.right =
      byteSize w.front + byteSize (w.left ++ w.right) + 1 := by
    rw [byteSize_append, show byteSize [' '] = 1 from rfl]
    omega
  rw [hoffset] at hspaced
  refine ⟨earlier, _, _, ⟨byteSize w.front, byteSize w.front + byteSize w.left⟩,
    ⟨byteSize w.front + byteSize w.left + byteSize [' '],
      byteSize w.front + byteSize (w.left ++ w.right) + 1⟩,
    (w.run.position.walk w.left).walk [' '], ?_, ?_, hrow, fun t ht => ?_, hmoved, ?_⟩
  · rw [Lexer.tokenize, source, String.toList_ofList, hsource]
    exact congrArg (earlier ++ · :: _) hw.symm
  · rw [Lexer.tokenize, spaced, String.toList_ofList, hspaced]
    rfl
  · have := Lexer.streamFrom_start _ _ _ _ t ht
    have := w.start
    omega
  · rw [Lexer.tokenize, spaced, String.toList_ofList, hspaced, Lexer.tokenize, source,
      String.toList_ofList, hsource]
    exact hfailure

end RunPlace

/-! ## Events -/

namespace Event

/-- The event wherever its token is found. -/
def unplaced (e : Event) : Event := { e with span := ⟨0, 0⟩, position := ⟨0, 0⟩ }

def symbol (lineBreak : Bool) (indent : Nat) (c : Char) : Event :=
  ⟨⟨.symbol, c.toString, ⟨0, 0⟩, ⟨0, 0⟩⟩, lineBreak, indent⟩

theorem symbolsOf_unplaced (cs : List Char) (offset : Nat) (p : Position) (lineBreak : Bool)
    (indent : Nat) :
    (symbolsOf cs offset p).map (fun t => unplaced ⟨t, lineBreak, indent⟩) =
      cs.map (symbol lineBreak indent) := by
  induction cs generalizing offset p with
  | nil => rfl
  | cons c cs ih => exact congrArg _ (ih _ _)

theorem splitRun_unplaced {cs : List Char} (h : cs ≠ []) (span : Span) (p : Position)
    (lineBreak : Bool) (indent : Nat) :
    (splitRun ⟨.symbol, String.ofList cs, span, p⟩).map (fun t => unplaced ⟨t, lineBreak, indent⟩) =
      cs.map (symbol lineBreak indent) := by
  unfold splitRun
  split
  · simp only [String.toList_ofList]
    exact symbolsOf_unplaced cs _ p lineBreak indent
  · rename_i hlen
    match cs with
    | [] => exact absurd rfl h
    | [c] => rfl
    | _ :: _ :: _ => simp at hlen

theorem splitRun_same {t u : Token} (hk : u.kind = t.kind) (ht : u.text = t.text)
    (lineBreak : Bool) (indent : Nat) :
    (splitRun u).map (fun x => unplaced ⟨x, lineBreak, indent⟩) =
      (splitRun t).map (fun x => unplaced ⟨x, lineBreak, indent⟩) := by
  unfold splitRun
  rw [hk, ht]
  split
  · rw [symbolsOf_unplaced, symbolsOf_unplaced]
  · simp [unplaced, hk, ht]

/-- What stays where it is or on its line makes the same events. -/
theorem ofTokensFrom_stays {row k : Nat} {ts us : List Token}
    (h : List.Forall₂ (Lexer.Moved k (RunPlace.Stays row)) ts us) {r : Nat} (hr : row ≤ r)
    (indent : Nat) :
    (ofTokensFrom (some r) indent us).map unplaced =
      (ofTokensFrom (some r) indent ts).map unplaced := by
  induction h generalizing r indent with
  | nil => rfl
  | @cons t u ts us hm _ ih =>
    simp only [ofTokensFrom, List.map_append, List.map_map]
    rcases hm.position with ⟨hp, hlt⟩ | ⟨ht, hu⟩
    · rw [hp]
      exact congrArg₂ _ (splitRun_same hm.kind hm.text _ _) (ih (Nat.le_of_lt hlt) _)
    · have hbreak : (some r).all (· < row) = false := by simpa using hr
      rw [ht, hu, hbreak]
      exact congrArg₂ _ (splitRun_same hm.kind hm.text _ _) (ih (Nat.le_refl _) _)

/-- Whether a token starts a line, and how it is indented, depends on what is in front of it. -/
theorem exists_ofTokensFrom (ts : List Token) (hts : ts.Pairwise (·.position.row ≤ ·.position.row))
    {row : Option Nat} (hrow : ∀ r ∈ row, ∀ t ∈ ts, r ≤ t.position.row) (indent : Nat)
    (p : Position) :
    ∃ lineBreak indent',
      (lineBreak = true → (∀ r ∈ row, r < p.row) ∧ ∀ t ∈ ts, t.position.row < p.row) ∧
      ∀ t us, t.position = p → ofTokensFrom row indent (ts ++ t :: us) =
        ofTokensFrom row indent ts ++ ((splitRun t).map (⟨·, lineBreak, indent'⟩) ++
          ofTokensFrom (some p.row) indent' us) := by
  induction ts generalizing row indent with
  | nil =>
    refine ⟨row.all (· < p.row), if row.all (· < p.row) then p.column else indent,
      fun hbreak => ⟨?_, by simp⟩, ?_⟩
    · rintro r rfl
      exact of_decide_eq_true hbreak
    · rintro t us rfl
      rfl
  | cons t ts ih =>
    obtain ⟨hhead, htail⟩ := List.pairwise_cons.1 hts
    have hnext : ∀ r ∈ some t.position.row, ∀ u ∈ ts, r ≤ u.position.row := by
      rintro _ ⟨⟩
      exact hhead
    obtain ⟨lineBreak, indent', hbreak, heq⟩ := ih htail hnext
      (if row.all (· < t.position.row) then t.position.column else indent)
    refine ⟨lineBreak, indent', fun hl => ?_, fun u us hu => ?_⟩
    · obtain ⟨ht, hall⟩ := hbreak hl
      have hlt := ht _ rfl
      exact ⟨fun r hr => Nat.lt_of_le_of_lt (hrow r hr t List.mem_cons_self) hlt,
        List.forall_mem_cons.2 ⟨hlt, hall⟩⟩
    · simp only [List.cons_append, ofTokensFrom, heq u us hu, List.append_assoc]

end Event

/-- A space in a run takes from the symbols behind it that they start a line, if they did, and
changes nothing else. -/
theorem RunPlace.events (w : RunPlace) :
    ∃ earlier later lineBreak indent, (lineBreak = true → w.StartsLine) ∧
      (Event.ofTokens (Lexer.tokenize .document w.source).tokens).map Event.unplaced =
        earlier ++ (w.left.map (Event.symbol lineBreak indent) ++
          (w.right.map (Event.symbol lineBreak indent) ++ later)) ∧
      (Event.ofTokens (Lexer.tokenize .document w.spaced).tokens).map Event.unplaced =
        earlier ++ (w.left.map (Event.symbol lineBreak indent) ++
          (w.right.map (Event.symbol false indent) ++ later)) := by
  obtain ⟨earlier, later, later', span, span', position, hsource, hspaced, hrow, hlater, hmoved,
    -⟩ := w.tokens
  have hrows := Lexer.streamFrom_rows .document w.source.toList 0 ⟨0, 0⟩
  rw [← Lexer.tokenize, hsource] at hrows
  have hnone : ∀ r ∈ (none : Option Nat), ∀ t ∈ earlier, r ≤ t.position.row := by rintro _ ⟨⟩
  obtain ⟨lineBreak, indent, hbreak, heq⟩ := Event.exists_ofTokensFrom earlier
    (List.pairwise_append.1 hrows).1 hnone 0 w.run.position
  have hrun : Event.splitRun w.run = Event.splitRun ⟨.symbol, String.ofList (w.left ++ w.right),
      w.run.span, w.run.position⟩ := by
    rw [← w.isSymbol, ← w.text, String.ofList_toList]
  have hnot : (some w.run.position.row).all (· < position.row) = false := by simp [hrow]
  refine ⟨(Event.ofTokensFrom none 0 earlier).map Event.unplaced,
    (Event.ofTokensFrom (some w.run.position.row) indent later).map Event.unplaced, lineBreak,
    indent, fun hl t ht hstart => ?_, ?_, ?_⟩
  · rw [hsource] at ht
    rcases List.mem_append.1 ht with ht | ht
    · exact (hbreak hl).2 t ht
    · rcases List.mem_cons.1 ht with rfl | ht
      · exact absurd hstart (Nat.lt_irrefl _)
      · exact absurd hstart (Nat.not_lt.2 (hlater t ht))
  · rw [hsource, Event.ofTokens, heq _ _ rfl, hrun]
    simp only [List.map_append, List.map_map]
    refine congrArg _ ?_
    rw [← List.append_assoc, ← List.map_append]
    exact congrArg (· ++ _) (Event.splitRun_unplaced w.isRun.ne_nil _ _ _ _)
  · rw [hspaced, Event.ofTokens, heq ⟨.symbol, _, span, w.run.position⟩ _ rfl]
    simp only [Event.ofTokensFrom, hnot, Bool.false_eq_true, if_false, List.map_append,
      List.map_map]
    refine congrArg _ (congrArg₂ _ (Event.splitRun_unplaced w.left_ne_nil _ _ _ _)
      (congrArg₂ _ (Event.splitRun_unplaced w.right_ne_nil _ _ _ _) ?_))
    rw [hrow]
    exact Event.ofTokensFrom_stays hmoved (Nat.le_refl _) indent

end MotionScript
