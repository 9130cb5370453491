import MotionScript.Proofs.Token.Runs
/-!
# Texts laid out as tokens

A text is a row of tokens with white space and control characters between them, up to its end or up
to the first fault. So the spans of tokens are in order, each holds whole characters, and what no
span holds only separates tokens.
-/

namespace MotionScript

open Text

/-- Whether a range of a source holds exactly the text `read`. -/
def Span.Holds (s : Span) (read source : List Char) : Prop :=
  ∃ before after, source = before ++ read ++ after ∧
    s = ⟨byteSize before, byteSize (before ++ read)⟩

namespace Lexer

/-! ## Faults -/

/-- Whether a token was begun that a fault ended within a text. -/
structure Stuck.Within (stuck : Stuck) (cs : List Char) : Prop where
  fault : stuck.fault ≠ .noToken
  rest : stuck.rest <:+ cs

theorem Stuck.Within.mono {stuck : Stuck} {cs ds : List Char} (h : stuck.Within cs)
    (hs : cs <:+ ds) : stuck.Within ds :=
  ⟨h.fault, h.rest.trans hs⟩

theorem Reading.cons_eq_error {c : Char} {r : Reading (List Char)} {stuck : Stuck} :
    Reading.cons c r = .error stuck ↔ r = .error stuck := by
  cases r <;> simp [Reading.cons, Except.map]

theorem decoded_eq_error {kind : TokenKind} {r : Reading (List Char)} {stuck : Stuck} :
    decoded kind r = .error stuck ↔ r = .error stuck := by
  cases r <;> simp [decoded, Except.map]

theorem numericEscape_stuck {leading : List Char} {limit base : Nat} {cs : List Char}
    {stuck : Stuck} (h : numericEscape leading limit base cs = .error stuck) :
    stuck.Within cs := by
  unfold numericEscape at h
  simp only at h
  split at h
  · cases h
    exact ⟨by dsimp only; split <;> simp, List.drop_suffix _ _⟩
  · split at h
    · cases h
    · cases h
      exact ⟨by simp, List.drop_suffix _ _⟩

theorem escape_stuck {cs : List Char} {stuck : Stuck} (h : escape cs = .error stuck) :
    stuck.Within cs := by
  cases cs with
  | nil => cases h; exact ⟨by simp, List.suffix_rfl⟩
  | cons c cs =>
    refine Stuck.Within.mono ?_ (List.suffix_cons c cs)
    simp only [escape] at h
    split at h
    · cases h
    split at h
    · exact numericEscape_stuck h
    split at h
    · exact numericEscape_stuck h
    split at h
    · exact numericEscape_stuck h
    split at h
    · exact numericEscape_stuck h
    split at h
    · exact numericEscape_stuck h
    · cases h

theorem quoted_stuck {quote : Char} {cs : List Char} {stuck : Stuck}
    (h : quoted quote cs = .error stuck) : stuck.Within cs := by
  fun_induction quoted quote cs with
  | case1 => cases h; exact ⟨by simp, List.suffix_rfl⟩
  | case2 => cases h
  | case3 rest stuck' he =>
    cases h
    exact (escape_stuck he).mono (List.suffix_cons _ _)
  | case4 rest decoded rest' he _ ih =>
    exact ((ih (Reading.cons_eq_error.1 h)).mono (escape_suffix he)).mono (List.suffix_cons _ _)
  | case5 c rest _ _ ih =>
    exact (ih (Reading.cons_eq_error.1 h)).mono (List.suffix_cons _ _)

/-- The rest of an identifier is stuck behind a backslash. -/
theorem identifierTail_stuck {cs : List Char} {stuck : Stuck}
    (h : identifierTail cs = .error stuck) : stuck.Within cs.tail := by
  fun_induction identifierTail cs with
  | case1 => cases h
  | case2 c rest _ ih =>
    exact (ih (Reading.cons_eq_error.1 h)).mono (List.tail_suffix rest)
  | case3 rest stuck' he =>
    cases h
    exact escape_stuck he
  | case4 rest decoded rest' he _ ih =>
    exact ((ih (Reading.cons_eq_error.1 h)).mono (List.tail_suffix rest')).mono (escape_suffix he)
  | case5 => cases h

theorem identifier_stuck {c : Char} {cs : List Char} {stuck : Stuck}
    (h : identifier (c :: cs) = .error stuck) : stuck.Within cs := by
  simp only [identifier] at h
  split at h
  · exact identifierTail_stuck h
  · exact (identifierTail_stuck (Reading.cons_eq_error.1 h)).mono (List.tail_suffix cs)

theorem afterNumber_stuck {c : Char} {cs : List Char} {stuck : Stuck}
    (h : afterNumber (c :: cs) = .error stuck) : stuck.Within cs := by
  unfold afterNumber at h
  simp only at h
  split at h
  · rename_i base body hr
    split at h
    · cases h
      refine ⟨by simp, ?_⟩
      have hbody : body <:+ c :: cs := by
        unfold Numeral.takeRadix at hr
        split at hr
        · rename_i hcs
          obtain ⟨b, -, hb⟩ := Option.map_eq_some_iff.1 hr
          cases hb
          exact ((List.suffix_cons _ _).trans (List.suffix_cons _ _)).trans
            (hcs ▸ takeSign_suffix (c :: cs))
        · cases hr
      have hlength := takeRadix_length hr
      have hsign := takeSign_length (c :: cs)
      refine (List.dropWhile_suffix _).trans ((List.suffix_cons_iff.1 hbody).resolve_left ?_)
      rintro rfl
      omega
    · cases h
  · cases h

/-- The first character of a token is read before anything can go wrong. -/
theorem lexeme_stuck {symbols : SymbolSet} {c : Char} {cs : List Char} {stuck : Stuck}
    (h : lexeme symbols (c :: cs) = .error stuck) : stuck.Within cs := by
  simp only [lexeme] at h
  split at h
  · exact quoted_stuck (decoded_eq_error.1 h)
  split at h
  · exact quoted_stuck (decoded_eq_error.1 h)
  split at h
  · cases ha : afterNumber (c :: cs) with
    | error stuck' => rw [ha] at h; cases h; exact afterNumber_stuck ha
    | ok rest => rw [ha] at h; cases h
  split at h
  · cases h
  · exact identifier_stuck (decoded_eq_error.1 h)

/-! ## Layouts -/

/-- A text behind `done` is laid out as a stream: its tokens with separators in front of each, and
then separators or the text in which a fault was found. -/
inductive Laid : List Char → Position → List Char → Stream → Prop where
  | done (done : List Char) (p : Position) {gap : List Char}
    (hg : ∀ c ∈ gap, isSeparator c = true) : Laid done p gap ⟨[], none⟩
  | fault (done : List Char) (p : Position) {gap read : List Char} {stuck : Stuck}
    (hg : ∀ c ∈ gap, isSeparator c = true) (hread : read ≠ []) (hf : stuck.fault ≠ .noToken) :
    Laid done p (gap ++ (read ++ stuck.rest))
      ⟨[], some (stuck.failure (byteSize (done ++ gap)) (p.walk gap) (read ++ stuck.rest))⟩
  | token {done : List Char} {p : Position} {gap read rest : List Char} {s : Stream}
    (kind : TokenKind) (text : String) (hg : ∀ c ∈ gap, isSeparator c = true) (hread : read ≠ [])
    (hstart : ∀ c ∈ read.head?, isSeparator c = false)
    (htext : kind = .number ∨ kind = .symbol → text.toList = read)
    (h : Laid (done ++ gap ++ read) ((p.walk gap).walk read) rest s) :
    Laid done p (gap ++ (read ++ rest)) (s.prepend
      [⟨kind, text, ⟨byteSize (done ++ gap), byteSize (done ++ gap ++ read)⟩, p.walk gap⟩])

/-- The text of a numeral or a run of symbols is its source. -/
theorem lexeme_asWritten {symbols : SymbolSet} {cs : List Char} {l : Lexeme}
    (h : lexeme symbols cs = .ok l) (hk : l.kind = .number ∨ l.kind = .symbol) :
    l.text = taken cs l.rest := by
  have not_decoded {kind : TokenKind} {r : Reading (List Char)} (h : decoded kind r = .ok l)
      (hkind : kind ≠ .number ∧ kind ≠ .symbol) : False := by
    rw [(decoded_eq_ok.1 h).1] at hk
    exact hk.elim hkind.1 hkind.2
  cases cs with
  | nil => cases h
  | cons c cs =>
    simp only [lexeme] at h
    split at h
    · exact (not_decoded h (by simp)).elim
    split at h
    · exact (not_decoded h (by simp)).elim
    split at h
    · cases ha : afterNumber (c :: cs) with
      | error stuck => rw [ha] at h; cases h
      | ok rest => rw [ha] at h; cases h; rfl
    split at h
    · cases h; rfl
    · exact (not_decoded h (by simp)).elim

theorem streamFrom_laid (symbols : SymbolSet) (done cs : List Char) (p : Position) :
    Laid done p cs (streamFrom symbols cs (byteSize done) p) := by
  have hcs : cs.takeWhile isSeparator ++ cs.dropWhile isSeparator = cs :=
    List.takeWhile_append_dropWhile
  have hg : ∀ c ∈ cs.takeWhile isSeparator, isSeparator c = true :=
    List.all_eq_true.1 List.all_takeWhile
  have hhead := List.head?_dropWhile_not isSeparator cs
  have hlength := length_dropWhile_le isSeparator cs
  rw [streamFrom_eq, ← byteSize_append]
  generalize cs.takeWhile isSeparator = gap at hcs hg ⊢
  generalize cs.dropWhile isSeparator = body at hcs hhead hlength ⊢
  rw [← hcs]
  cases body with
  | nil => rw [List.append_nil]; exact .done done p hg
  | cons c body =>
    simp only [streamAt]
    cases hl : lexeme symbols (c :: body) with
    | error stuck =>
      obtain ⟨hf, read, hrest⟩ := lexeme_stuck hl
      rw [← hrest]
      exact .fault done p hg (List.cons_ne_nil c read) hf
    | ok l =>
      have hread : taken (c :: body) l.rest ++ l.rest = c :: body :=
        taken_append_rest (lexeme_suffix hl)
      have hshort := lexeme_length hl
      have htext := lexeme_asWritten hl
      dsimp only
      generalize taken (c :: body) l.rest = read at hread htext ⊢
      have hne : read ≠ [] := by
        rintro rfl
        rw [← hread] at hshort
        exact Nat.lt_irrefl _ hshort
      have hstart : ∀ d ∈ read.head?, isSeparator d = false := by
        intro d hd
        have hfirst : (read ++ l.rest).head? = read.head? := List.head?_append_of_ne_nil read hne
        rw [hread, hd, List.head?_cons, Option.some.injEq] at hfirst
        exact hfirst ▸ hhead
      rw [← hread, ← byteSize_append]
      exact .token l.kind (String.ofList l.text) hg hne hstart
        (fun hk => by rw [String.toList_ofList, htext hk])
        (streamFrom_laid symbols (done ++ gap ++ read) l.rest _)
termination_by cs.length

theorem tokenize_laid (symbols : SymbolSet) (text : String) :
    Laid [] ⟨0, 0⟩ text.toList (tokenize symbols text) :=
  streamFrom_laid symbols [] text.toList ⟨0, 0⟩

/-! ## Spans of tokens -/

/-- A character of two texts in a row is in the first one or in the second one. -/
theorem mem_or_behind {a b before after : List Char} {c : Char}
    (h : a ++ b = before ++ c :: after) :
    (∃ mid, a = before ++ c :: mid) ∨ ∃ mid, before = a ++ mid ∧ b = mid ++ c :: after := by
  rcases List.append_eq_append_iff.1 h with ⟨mid, rfl, hb⟩ | ⟨mid, rfl, hmid⟩
  · exact .inr ⟨mid, rfl, hb⟩
  · rcases List.cons_eq_append_iff.1 hmid with ⟨rfl, rfl⟩ | ⟨mid, rfl, -⟩
    · exact .inr ⟨[], by simp, rfl⟩
    · exact .inl ⟨mid, rfl⟩

namespace Laid

variable {done cs : List Char} {p : Position} {s : Stream}

theorem length_le (h : Laid done p cs s) : s.tokens.length ≤ cs.length := by
  induction h with
  | done => exact Nat.zero_le _
  | fault => exact Nat.zero_le _
  | token kind text hg hread hstart htext h ih =>
    have := List.length_pos_iff.2 hread
    simp only [Stream.prepend, List.length_append, List.length_cons, List.length_nil]
    omega

theorem start_le (h : Laid done p cs s) : ∀ t ∈ s.tokens, byteSize done ≤ t.span.start := by
  induction h with
  | done => simp
  | fault => simp
  | token kind text hg hread hstart htext h ih =>
    refine List.forall_mem_cons.2 ⟨?_, fun t ht => Nat.le_trans ?_ (ih t ht)⟩
    · simp only [byteSize_append]
      omega
    · simp only [byteSize_append]
      omega

theorem holds (h : Laid done p cs s) : ∀ t ∈ s.tokens, ∃ read, read ≠ [] ∧
    t.span.Holds read (done ++ cs) ∧
      (t.kind = .number ∨ t.kind = .symbol → t.text.toList = read) := by
  induction h with
  | done => simp
  | fault => simp
  | @token done p gap read rest s kind text hg hread hstart htext h ih =>
    refine List.forall_mem_cons.2 ⟨⟨read, hread, ⟨done ++ gap, rest, ?_, rfl⟩, htext⟩, ?_⟩
    · simp only [List.append_assoc]
    · have hsource : done ++ (gap ++ (read ++ rest)) = done ++ gap ++ read ++ rest := by
        simp only [List.append_assoc]
      rw [hsource]
      exact ih

theorem ordered (h : Laid done p cs s) :
    s.tokens.Pairwise fun t u => t.span.stop ≤ u.span.start := by
  induction h with
  | done => exact .nil
  | fault => exact .nil
  | token kind text hg hread hstart htext h ih => exact .cons h.start_le ih

/-- A character in front of the fault is read as part of a token or separates tokens. -/
theorem covered (h : Laid done p cs s) {before after : List Char} {c : Char}
    (hc : cs = before ++ c :: after) : isSeparator c = true ∨
      (∃ t ∈ s.tokens, t.span.start ≤ byteSize (done ++ before) ∧
        byteSize (done ++ before) < t.span.stop) ∨
      ∃ f ∈ s.failure, ∃ label ∈ f.diagnostic.labels,
        label.span.start ≤ byteSize (done ++ before) := by
  induction h generalizing before with
  | done done p hg => exact .inl (hg c (by simp [hc]))
  | @fault done p gap read stuck hg hread hf =>
    rcases mem_or_behind hc with ⟨mid, rfl⟩ | ⟨mid, rfl, -⟩
    · exact .inl (hg c (by simp))
    · refine .inr (.inr ⟨_, rfl, _, List.mem_singleton_self _, ?_⟩)
      rw [← List.append_assoc, byteSize_append _ mid]
      exact Nat.le_add_right _ _
  | @token done p gap read rest s kind text hg hread hstart htext h ih =>
    rcases mem_or_behind hc with ⟨mid, rfl⟩ | ⟨mid, rfl, hmid⟩
    · exact .inl (hg c (by simp))
    rcases mem_or_behind hmid with ⟨back, rfl⟩ | ⟨back, rfl, hback⟩
    · refine .inr (.inl ⟨_, List.mem_cons_self, ?_, ?_⟩)
      · simp only [byteSize_append]
        omega
      · have := byteSize_pos (List.cons_ne_nil c back)
        simp only [byteSize_append]
        omega
    · have hsource : done ++ (gap ++ (read ++ back)) = done ++ gap ++ read ++ back := by
        simp only [List.append_assoc]
      rw [hsource]
      rcases ih hback with hsep | ⟨t, ht, hspan⟩ | hfault
      · exact .inl hsep
      · exact .inr (.inl ⟨t, List.mem_cons_of_mem _ ht, hspan⟩)
      · exact .inr (.inr hfault)

/-- The fault is found in a text behind all tokens that is not empty. -/
theorem faulty (h : Laid done p cs s) {f : Failure} (hf : f ∈ s.failure) :
    ∃ stuck : Stuck, ∃ start q read, stuck.fault ≠ .noToken ∧ read ≠ [] ∧
      f = stuck.failure start q (read ++ stuck.rest) ∧
      Span.Holds ⟨start, start + byteSize read⟩ read (done ++ cs) ∧ byteSize done ≤ start ∧
      ∀ t ∈ s.tokens, t.span.stop ≤ start := by
  induction h with
  | done => cases hf
  | @fault done p gap read stuck hg hread hfault =>
    cases hf
    refine ⟨stuck, _, _, read, hfault, hread, rfl, ⟨done ++ gap, stuck.rest, ?_, ?_⟩, ?_, by simp⟩
    · simp only [List.append_assoc]
    · rw [← byteSize_append]
    · rw [byteSize_append]
      exact Nat.le_add_right _ _
  | @token done p gap read rest s kind text hg hread hstart htext h ih =>
    obtain ⟨stuck, start, q, read', hfault, hne, heq, hholds, hle, hstop⟩ := ih hf
    have hsource : done ++ (gap ++ (read ++ rest)) = done ++ gap ++ read ++ rest := by
      simp only [List.append_assoc]
    refine ⟨stuck, start, q, read', hfault, hne, heq, hsource ▸ hholds, Nat.le_trans ?_ hle,
      List.forall_mem_cons.2 ⟨hle, hstop⟩⟩
    rw [List.append_assoc, byteSize_append]
    exact Nat.le_add_right _ _

end Laid

/-- The label of a fault is at the text that was read of its token. -/
theorem Stuck.failure_labels (stuck : Stuck) (start : Nat) (p : Position) {read : List Char}
    (h : read ≠ []) : (stuck.failure start p (read ++ stuck.rest)).diagnostic.labels =
      [⟨⟨start, start + byteSize read⟩, stuck.fault.label⟩] := by
  have htaken : taken (read ++ stuck.rest) stuck.rest = read := by simp [taken]
  have hpos := byteSize_pos h
  have hstop : min (max (start + byteSize read) (start + 1))
      (start + byteSize (read ++ stuck.rest)) = start + byteSize read := by
    rw [byteSize_append]
    omega
  simp only [Stuck.failure, htaken, hstop]
  rfl

theorem Fault.code_name {fault : Fault} (h : fault ≠ .noToken) :
    fault.code.name ∈ ["E001", "E002", "E003", "E004"] ∧
      fault.message ≠ Fault.noToken.message := by
  cases fault with
  | noToken => exact absurd rfl h
  | unterminatedString quote => exact ⟨by simp [Fault.code, Code.name], by simp [Fault.message]⟩
  | _ => decide

/-- What the tokens of a source are to it: they are read from ranges of it in order, and all that is
in none of the ranges only separates tokens. A fault is found behind all of them. -/
structure Stream.Partitions (s : Stream) (source : List Char) : Prop where
  /-- A stream ends. -/
  ends : s.tokens.length ≤ source.length
  spans : ∀ t ∈ s.tokens, ∃ read, read ≠ [] ∧ t.span.Holds read source ∧
    (t.kind = .number ∨ t.kind = .symbol → t.text.toList = read)
  ordered : s.tokens.Pairwise fun t u => t.span.stop ≤ u.span.start
  gaps : ∀ before c after, source = before ++ c :: after → isSeparator c = true ∨
    (∃ t ∈ s.tokens, t.span.start ≤ byteSize before ∧ byteSize before < t.span.stop) ∨
    ∃ f ∈ s.failure, ∃ label ∈ f.diagnostic.labels, label.span.start ≤ byteSize before
  /-- A stream does not end with a character that no token starts with. -/
  fault : ∀ f ∈ s.failure, (∃ code, f.code = some code ∧
      code.name ∈ ["E001", "E002", "E003", "E004"]) ∧ f.message ≠ Fault.noToken.message
  /-- The fault is last. -/
  last : ∀ f ∈ s.failure, ∃ label read, f.diagnostic.labels = [label] ∧ read ≠ [] ∧
    label.span.Holds read source ∧ ∀ t ∈ s.tokens, t.span.stop ≤ label.span.start

/-- The tokens of a text partition it, whatever characters are symbols. -/
theorem tokenize_partitions (symbols : SymbolSet) (text : String) :
    (tokenize symbols text).Partitions text.toList := by
  have h := tokenize_laid symbols text
  refine ⟨h.length_le, h.holds, h.ordered, fun before c after hc => h.covered hc, fun f hf => ?_,
    fun f hf => ?_⟩
  · obtain ⟨stuck, start, q, read, hfault, -, rfl, -⟩ := h.faulty hf
    obtain ⟨hcode, hmessage⟩ := Fault.code_name hfault
    exact ⟨⟨_, rfl, hcode⟩, hmessage⟩
  · obtain ⟨stuck, start, q, read, -, hread, rfl, hholds, -, hstop⟩ := h.faulty hf
    exact ⟨_, read, stuck.failure_labels start q hread, hread, hholds, hstop⟩

end Lexer

end MotionScript
